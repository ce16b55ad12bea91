import FiniteAutomata.Proofs.AccessiblePart
import FiniteAutomata.Proofs.Assembly
import FiniteAutomata.Strict

/-!
Nothing goes wrong. On what regular operations lead to, elimination succeeds, determinization
succeeds after it, and neither comes across the number of a missing state: with every state looked
up before it is viewed, they do the same.
-/

namespace FiniteAutomata

/-! ### Elimination -/

namespace Nfa

variable {a : Nfa}

namespace Strict

theorem closeInitial_eq (h : WellFormed a) : closeInitial a = Nfa.closeInitial a := by
  obtain ⟨met, searched, seen⟩ := h.epsilonClosure_succeeds h.starts
  have exist : ∀ q ∈ met.found, q < a.size := by
    intro q member
    obtain ⟨p, start, path⟩ := (seen q).mp (Graph.found_seen searched q member)
    exact h.epsilonPath_lt (h.starts p start) path
  obtain ⟨found, looked, names, _⟩ := Dfa.State.statesAt_of_lt exist
  have first : Edit.ofExcept (a.epsilonClosure a.initial) a = ⟨a, [], .ok met⟩ := by
    rw [searched]
    rfl
  have second : Edit.ofExcept (Dfa.State.statesAt a met.found) a = ⟨a, [], .ok found⟩ := by
    rw [looked]
    rfl
  have events : found.map (fun q => Event.initialThroughEpsilon q.name) =
      met.found.map fun q => .initialThroughEpsilon (a.nameOf q) := by
    have same := congrArg (List.map Event.initialThroughEpsilon) names
    rwa [List.map_map, List.map_map] at same
  have count : found.length = met.found.length := by
    have same := congrArg List.length names
    rwa [List.length_map, List.length_map] at same
  have strict : closeInitial a = ⟨a.starting met.seen, found.map
      (fun q => .initialThroughEpsilon q.name) ++ [.initialClosed found.length], .ok ()⟩ :=
    Edit.bind_of_silent Edit.get_apply (Edit.bind_of_silent first (Edit.bind_of_silent second
      (Edit.bind_of_silent Edit.set_apply (Edit.bind_of_ok rfl rfl))))
  have ordinary : Nfa.closeInitial a = ⟨a.starting met.seen, met.found.map
      (fun q => .initialThroughEpsilon (a.nameOf q)) ++ [.initialClosed met.found.length], .ok ()⟩ :=
    Edit.bind_of_silent Edit.get_apply (Edit.bind_of_silent first
      (Edit.bind_of_silent Edit.set_apply (Edit.bind_of_ok rfl rfl)))
  rw [strict, ordinary, events, count]

/-- What waits in the queue is listed, so its source exists. -/
theorem saturate_eq {rule : Rule} {kind : Symbol → Bool} (carries : rule.Carries kind)
    (h : WellFormed a) : saturate rule a = Nfa.saturate rule a := by
  refine Worklist.run_guarded _
    (fun queue b => ∃ added, b = a.includingAll added ∧ Saturating a kind queue added)
    ?passes ?hand _ _ ⟨[], rfl, .start h kind⟩
  case passes =>
    intro t rest b waiting
    obtain ⟨added, rfl, saturating⟩ := waiting
    obtain ⟨_, listed⟩ := saturating.queued t List.mem_cons_self
    rw [← transitions_includingAll] at listed
    obtain ⟨s, looked, _⟩ := state_of_lt (saturating.wellFormed.ends t listed).1
    rw [looked]
    rfl
  case hand =>
    intro t rest b waiting
    obtain ⟨added, rfl, saturating⟩ := waiting
    obtain ⟨fresh, more, applied, next⟩ := saturating.step carries
    exact ⟨_, _, more, applied, added ++ fresh, rfl, next⟩

theorem saturateReporting_eq {rule : Rule} {kind : Symbol → Bool} {event : Nat → Event}
    (carries : rule.Carries kind) (h : WellFormed a) :
    saturateReporting rule event a = Nfa.saturateReporting rule event a := by
  obtain ⟨added, ran, _⟩ := saturate_succeeds carries h
  exact Edit.bind_congr Edit.get_apply rfl (Edit.bind_congr ran (saturate_eq carries h) rfl)

theorem inheritAcceptance_eq {ts : List Transition} (h : WellFormed a)
    (ends : ∀ t ∈ ts, t.source < a.size ∧ t.target < a.size) :
    inheritAcceptance ts a = Nfa.inheritAcceptance ts a := by
  induction ts generalizing a with
  | nil => rfl
  | cons t rest ih =>
    obtain ⟨source, target⟩ := ends t List.mem_cons_self
    have later : ∀ u ∈ rest, u.source < a.size ∧ u.target < a.size :=
      fun u member => ends u (List.mem_cons_of_mem t member)
    obtain ⟨p, lookedSource, acceptsSource, name⟩ := state_of_lt source
    obtain ⟨q, lookedTarget, acceptsTarget, _⟩ := state_of_lt target
    refine Edit.bind_congr Edit.get_apply rfl ?_
    simp only [lookedTarget, lookedSource, Edit.ofExcept, pure_bind, acceptsTarget, acceptsSource,
      name]
    split
    · have size : (a.promoting t.source).size = a.size := List.length_map _
      refine Edit.bind_congr (promote_eq h source) rfl (Edit.bind_congr rfl rfl ?_)
      rw [Edit.bind_apply, Edit.bind_apply, ih (h.promoting t.source) (size ▸ later)]
    · exact ih h later

theorem promoteAccepting_eq (h : WellFormed a) : promoteAccepting a = Nfa.promoteAccepting a := by
  have ends : ∀ t ∈ a.epsilonTransitions, t.source < a.size ∧ t.target < a.size :=
    fun t member => h.ends t (List.mem_filter.mp member).1
  refine Edit.bind_congr Edit.get_apply rfl ?_
  rw [Edit.bind_apply, Edit.bind_apply, inheritAcceptance_eq h ends]

theorem eliminateEpsilons_eq (h : WellFormed a) :
    eliminateEpsilons a = Nfa.eliminateEpsilons a := by
  obtain ⟨_, _, closes, h₁, _⟩ := closeInitial_succeeds h
  obtain ⟨_, composes, s⟩ := saturateReporting_succeeds composition_carries h₁
  obtain ⟨_, _, promotes, inherits, _⟩ := promoteAccepting_succeeds s.wellFormed
  obtain ⟨_, shortens, _⟩ := saturateReporting_succeeds shortcut_carries inherits.wellFormed
  refine Edit.bind_congr Edit.get_apply rfl (Edit.bind_congr rfl rfl ?_)
  refine Edit.bind_congr closes (closeInitial_eq h) ?_
  refine Edit.bind_congr composes (saturateReporting_eq composition_carries h₁) ?_
  refine Edit.bind_congr promotes (promoteAccepting_eq s.wellFormed) ?_
  exact Edit.bind_congr shortens (saturateReporting_eq shortcut_carries inherits.wellFormed) rfl

end Strict
end Nfa

/-! ### Determinization -/

namespace Dfa

variable {a : Nfa} {d : Dfa} {i : StateId}

/-- Members are initial, or some outbound index leads to them. -/
theorem Explored.members_lt {pending : StateId → Symbol → Prop} (h : Explored a pending d)
    (bounded : a.Bounded) (exist : i < d.size) : ∀ q ∈ d.members i, q < a.size := by
  cases h.accessible i exist with
  | refl =>
    rw [h.first.2]
    exact bounded.starts
  | tail _ edge =>
    obtain ⟨x, listed⟩ := edge
    exact bounded.image (h.sound listed)

theorem Strict.expandAll_eq (bounded : a.Bounded) (h : Queued a [i] d) :
    expandAll a i d = Dfa.expandAll a i d := by
  refine Worklist.run_guarded _ (Queued a) ?_ (fun queued => expand_succeeds bounded queued) _ _ h
  intro j rest e queued
  have exist := queued.exist j List.mem_cons_self
  obtain ⟨q, found⟩ := exists_state exist
  have members := queued.explored.members_lt bounded exist
  rw [members_of_found found] at members
  obtain ⟨states, looked, _⟩ := State.statesAt_of_lt members
  rw [state, found]
  show (do let _ ← State.statesAt a q.members.toList; return ()) = Except.ok ()
  rw [looked]
  rfl

end Dfa

namespace Nfa

variable {a : Nfa}

theorem Strict.determinize_eq (bounded : a.Bounded) : Strict.determinize a = a.determinize := by
  have interned : Dfa.intern a.initial a (Dfa.emptyFor a) =
      ⟨(Dfa.emptyFor a).entering (.standing 0 a.initial a), [], .ok (0, true)⟩ :=
    Dfa.intern_new rfl bounded.starts
  rw [Strict.determinize, Dfa.Strict.construct, a.determinize_eq, Dfa.construct_eq]
  split
  · obtain ⟨_, _, ran, _⟩ := Dfa.expandAll_succeeds bounded (Dfa.queued_start a)
    have same := Dfa.Strict.expandAll_eq bounded (Dfa.queued_start a)
    exact Edit.bind_congr interned rfl (Edit.bind_congr ran same rfl)
  · rfl

/-- Neither elimination nor determinization after it fails, not even on a number. -/
theorem Reachable.eliminateEpsilons_safe (h : Reachable a) :
    ∃ b log d log', eliminateEpsilons a = ⟨b, log, .ok ()⟩ ∧
      Strict.eliminateEpsilons a = ⟨b, log, .ok ()⟩ ∧
      b.determinize = ⟨d, log', .ok ()⟩ ∧ Strict.determinize b = ⟨d, log', .ok ()⟩ := by
  obtain ⟨b, log, ran, wellFormed, eliminates⟩ := h.wellFormed.eliminateEpsilons
  obtain ⟨d, log', built, _⟩ :=
    Dfa.determinize_succeeds wellFormed.bounded eliminates.isEpsilonFree
  refine ⟨b, log, d, log', ran, ?_, built, ?_⟩
  · rw [Strict.eliminateEpsilons_eq h.wellFormed, ran]
  · rw [Strict.determinize_eq wellFormed.bounded, built]

theorem eliminateEpsilons_safe_detour :
    ∃ b log d log', eliminateEpsilons (run {} detour) = ⟨b, log, .ok ()⟩ ∧
      Strict.eliminateEpsilons (run {} detour) = ⟨b, log, .ok ()⟩ ∧
      b.determinize = ⟨d, log', .ok ()⟩ ∧ Strict.determinize b = ⟨d, log', .ok ()⟩ :=
  Reachable.eliminateEpsilons_safe ⟨detour, by decide, rfl⟩

/-! ### Determinization of automata with any indices -/

theorem bounded_iff : a.Bounded ↔ (∀ q ∈ a.initial.toList, q < a.size) ∧
    ∀ s ∈ a.states, ∀ t ∈ s.outbound.edges, t.target < a.size := by
  constructor
  · intro bounded
    refine ⟨bounded.starts, fun s member t listed => ?_⟩
    obtain ⟨p, found⟩ := List.mem_iff_getElem?.mp member
    refine bounded.targets (p := p) ?_
    rw [edgesFrom, found]
    exact listed
  · intro checked
    refine ⟨checked.1, fun {p t} listed => ?_⟩
    unfold edgesFrom at listed
    split at listed
    · rename_i s found
      exact checked.2 s (List.mem_of_getElem? found) t listed
    · cases listed

instance (a : Nfa) : Decidable a.Bounded := decidable_of_iff' _ bounded_iff

/-- Listed epsilon transitions are the only reason for determinization to fail. Without them it
goes by the outbound indices alone. -/
structure Determinizable (a : Nfa) : Prop where
  fails : ∀ e, a.determinize.result = .error e ↔ 0 < a.transitions.countP Transition.isEpsilon ∧
    e = .hasEpsilon (a.transitions.countP Transition.isEpsilon)
  succeeds : a.transitions.countP Transition.isEpsilon = 0 → ∃ d log,
    a.determinize = ⟨d, log, .ok ()⟩ ∧ Strict.determinize a = ⟨d, log, .ok ()⟩ ∧
      Dfa.Determinizes a d ∧ d.isDeterministic ∧ ∀ i < d.size, ∃ w, d.follow 0 w = some i

theorem isEpsilonFree_iff_countP :
    a.isEpsilonFree ↔ a.transitions.countP Transition.isEpsilon = 0 := by
  simp only [isEpsilonFree, List.all_eq_true, List.countP_eq_zero, Bool.not_eq_true']
  simp only [Bool.not_eq_true]

theorem determinize_refused (epsilon : ¬ a.isEpsilonFree) :
    a.determinize.result = .error (.hasEpsilon (a.transitions.countP Transition.isEpsilon)) := by
  rw [determinize_eq, Dfa.construct_eq, if_neg epsilon, List.countP_eq_length_filter]
  rfl

/-- The indices may contradict each other and the list of transitions. -/
theorem Bounded.determinizable (bounded : a.Bounded) : a.Determinizable := by
  by_cases free : a.isEpsilonFree
  · have none := isEpsilonFree_iff_countP.mp free
    obtain ⟨d, log, ran, built⟩ := Dfa.determinize_succeeds bounded free
    constructor
    case fails => simp [ran, none]
    case succeeds =>
      intro _
      exact ⟨d, log, ran, (Strict.determinize_eq bounded).trans ran, built,
        built.wellFormed.isDeterministic, fun _ exist => built.exists_follow exist⟩
  · have some := mt isEpsilonFree_iff_countP.mpr free
    constructor
    case fails =>
      intro e
      rw [determinize_refused free, Except.error.injEq]
      exact ⟨fun same => ⟨Nat.pos_of_ne_zero some, same.symm⟩, fun found => found.2.symm⟩
    case succeeds => exact fun none => absurd none some

/-- A transition that its source has forgotten, one that its source knows twice, and two that only
their sources know, one of them on epsilon. -/
def misfiled : List Operation := [
  .addState "p" .ordinary, .addState "q" .accepting, .addInitial 0,
  .addTransition ⟨0, .letter "x", 1⟩, .addTransition ⟨1, .letter "y", 0⟩,
  .editState 1 (.removeOutbound ⟨1, .letter "y", 0⟩),
  .editState 0 (.addOutbound ⟨0, .letter "x", 1⟩), .editState 0 (.addOutbound ⟨0, .epsilon, 1⟩),
  .editState 1 (.addOutbound ⟨1, .letter "z", 0⟩)]

theorem determinizable_misfiled :
    (run {} misfiled).Bounded ∧ (run {} misfiled).Determinizable := by
  have bounded : (run {} misfiled).Bounded := by decide
  exact ⟨bounded, bounded.determinizable⟩

end Nfa
end FiniteAutomata
