import FiniteAutomata.Proofs.Discovery
import FiniteAutomata.Proofs.Log
import FiniteAutomata.Proofs.Simulation

/-!
The log of the subset construction replays its result. It traces the edges in their order and, right
before the first edge that leads to a state, that this state was discovered. A summary closes it.
-/

namespace FiniteAutomata

namespace Dfa

variable {d : Dfa} {ts : List Transition} {n : Nat} {j : StateId} {log : List Event}

/-- The state is told after those with smaller numbers, and right before the first edge to it. -/
def Heralded (d : Dfa) (ts : List Transition) (log : List Event) (j : StateId) : Prop :=
  ∃ before after earlier t later,
    log = before ++ .discovered (d.shownState j) :: .added (d.shown t) :: after ∧
    ts = earlier ++ t :: later ∧ t.target = j ∧ (∀ u ∈ earlier, u.target ≠ j) ∧
    before.filterMap Event.discovered? = (List.range' 1 (j - 1)).map d.shownState ∧
    before.filterMap Event.added? = earlier.map d.shown

/-- What comes later does not matter. -/
theorem Heralded.append (h : Heralded d ts log j) (us : List Transition) (more : List Event) :
    Heralded d (ts ++ us) (log ++ more) j := by
  obtain ⟨before, after, earlier, t, later, rfl, rfl, rest⟩ := h
  exact ⟨before, after ++ more, earlier, t, later ++ us, by simp, by simp, rest⟩

namespace Told

theorem targets (told : Told d ts n log) : ∀ t ∈ ts, t.target < n := by
  induction told with
  | start => exact fun t member => (List.not_mem_nil member).elim
  | known past source target ih =>
    intro u member
    rcases List.mem_append.mp member with old | new
    · exact ih u old
    · exact List.mem_singleton.mp new ▸ target
  | fresh past source target ih =>
    intro u member
    rcases List.mem_append.mp member with old | new
    · exact Nat.lt_succ_of_lt (ih u old)
    · rw [List.mem_singleton.mp new, target]
      exact Nat.lt_succ_self _

theorem added (told : Told d ts n log) : log.filterMap Event.added? = ts.map d.shown := by
  induction told with
  | start => rfl
  | known past source target ih =>
    rw [List.filterMap_append, ih, List.map_append]
    rfl
  | fresh past source target ih =>
    rw [List.filterMap_append, ih, List.map_append]
    rfl

theorem discovered (told : Told d ts n log) :
    log.filterMap Event.discovered? = (List.range' 1 (n - 1)).map d.shownState := by
  induction told with
  | start => rfl
  | known past source target ih =>
    rw [List.filterMap_append, ih]
    exact List.append_nil _
  | @fresh _ n _ _ past source target ih =>
    obtain ⟨k, rfl⟩ := Nat.exists_eq_add_one_of_ne_zero (Nat.ne_zero_of_lt source)
    rw [List.filterMap_append, ih, Nat.add_sub_cancel, Nat.add_sub_cancel, List.range'_1_concat,
      List.map_append, Nat.add_comm 1 k]
    rfl

theorem heralded (told : Told d ts n log) (first : 1 ≤ j) (met : j < n) : Heralded d ts log j := by
  induction told with
  | start => exact absurd met (Nat.not_lt.mpr first)
  | known past source target ih => exact (ih met).append _ _
  | fresh past source target ih =>
    rcases Nat.lt_succ_iff_lt_or_eq.mp met with old | rfl
    · exact (ih old).append _ _
    · exact ⟨_, [], _, _, [], rfl, rfl, target, fun u member => Nat.ne_of_lt (past.targets u member),
        past.discovered, past.added⟩

theorem kinds (told : Told d ts n log) : ∀ e ∈ log, e.discovered?.isSome ∨ e.added?.isSome := by
  induction told with
  | start => exact fun e member => (List.not_mem_nil member).elim
  | known past source target ih =>
    intro e member
    rcases List.mem_append.mp member with old | new
    · exact ih e old
    · rw [List.mem_singleton.mp new]
      exact .inr rfl
  | fresh past source target ih =>
    intro e member
    rcases List.mem_append.mp member with old | new
    · exact ih e old
    · rcases List.mem_pair.mp new with rfl | rfl
      · exact .inl rfl
      · exact .inr rfl

theorem traces (told : Told d ts n log) : ∀ e ∈ log, e.level = .trace := by
  intro e member
  rcases told.kinds e member with kind | kind
  · obtain ⟨q, told⟩ := Option.isSome_iff_exists.mp kind
    exact congrArg Prod.fst (Event.message_of_discovered? told)
  · obtain ⟨t, told⟩ := Option.isSome_iff_exists.mp kind
    exact congrArg Prod.fst (Event.message_of_added? told)

end Told

/-- The log of a construction from an automaton, message by message. -/
structure Replays (a : Nfa) (d : Dfa) (log : List Event) : Prop where
  discovered : (log.filter (·.discovered?.isSome)).map Event.message =
    (List.range' 1 (d.size - 1)).map fun j => (.trace, "discovered superstate " ++ d.shownState j)
  added : (log.filter (·.added?.isSome)).map Event.message =
    d.transitions.map fun t => (.trace, "added transition " ++ d.shown t)
  heralded : ∀ j, 1 ≤ j → j < d.size → Heralded d d.transitions log j
  traces : ∀ e ∈ log.dropLast, e.level = .trace ∧ (e.discovered?.isSome ∨ e.added?.isSome)
  summaries : log.filter (·.level = .debug) = log.getLast?.toList
  last : log.getLast?.map Event.message = some (.debug,
    "subset construction produced " ++ toString d.size ++ " superstates and " ++
      toString d.transitions.length ++ " transitions from " ++ toString a.size ++ " states")

end Dfa

namespace Nfa

variable {a : Nfa}

end Nfa
end FiniteAutomata
