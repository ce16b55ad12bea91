import FiniteAutomata.Proofs.AccessiblePart
import FiniteAutomata.Strict

/-!
Every queue is worked off. A queue can grow in each step, and a saturation puts the item back that it
just took; but whatever a step adds to the queue is paid for by what it adds to the automaton, and
there is only so much to add. This needs no agreement between the indices and the list of
transitions.
-/

namespace FiniteAutomata

/-- The loop that works off a queue ends after so many steps: the queue is empty then, or the last
step has failed. -/
inductive Ends {σ α : Type} (step : α → Edit σ (List α)) : Nat → List α → σ → Outcome σ Unit → Prop
  | empty (s : σ) : Ends step 0 [] s ⟨s, [], .ok ()⟩
  | failure {item : α} {rest : List α} {s t : σ} {log : List Event} {e : Error} :
      step item s = ⟨t, log, .error e⟩ → Ends step 1 (item :: rest) s ⟨t, log, .error e⟩
  | next {n : Nat} {item : α} {rest more : List α} {s t : σ} {log : List Event}
      {later : Outcome σ Unit} : step item s = ⟨t, log, .ok more⟩ → Ends step n (rest ++ more) t later →
      Ends step (n + 1) (item :: rest) s ⟨later.final, log ++ later.log, later.result⟩

/-- A step that looks at the value first, and fails where that does. -/
def looking {σ α : Type} (look : α → σ → Except Error Unit) (step : α → Edit σ (List α)) (item : α) :
    Edit σ (List α) := do
  Edit.ofExcept (look item (← Edit.get))
  step item

namespace Worklist

variable {σ α : Type} {w : Worklist σ α} {k : Nat}

/-- What a step puts into the queue is covered by what it takes off the bound. -/
def Pays (w : Worklist σ α) (k : Nat) : Prop := ∀ {item s t log more}, w.valid s →
  w.step item s = ⟨t, log, .ok more⟩ → k * w.bound t + more.length ≤ k * w.bound s

theorem Pays.guarded (pays : w.Pays k) (look : α → σ → Except Error Unit) :
    (w.guarded look).Pays k :=
  fun ready ok => pays ready (Edit.ofExcept_get_ok ok)

theorem run_ends (pays : w.Pays k) {queue : List α} {s : σ} (ready : w.valid s) :
    ∃ n, Ends w.step n queue s (w.run queue s ready) ∧ n ≤ queue.length + k * w.bound s := by
  fun_induction run w queue s ready with
  | case1 s ready => exact ⟨0, .empty s, Nat.zero_le _⟩
  | case2 s ready item rest mid log e stepped =>
    exact ⟨1, .failure stepped, by rw [List.length_cons]; omega⟩
  | case3 s ready item rest mid log more stepped later =>
    rename_i ih
    obtain ⟨n, ends, bound⟩ := ih
    have paid := pays ready stepped
    refine ⟨n + 1, .next stepped ends, ?_⟩
    rw [List.length_append] at bound
    rw [List.length_cons]
    omega

end Worklist

/-! ### Searches -/

namespace Graph

theorem search_pays (g : Graph) : g.search.Pays 1 := fun _ ok => by
  rw [Nat.one_mul, Nat.one_mul]
  exact unseen_add_length_le ok

/-- A step for each node of the start, and one more at most for each edge. -/
theorem explore_ends (g : Graph) (start : StateSet) :
    ∃ n outcome, Ends g.visit n start.toList ⟨start, []⟩ outcome ∧
      n ≤ start.toList.length + g.flatten.length ∧
      g.explore start = outcome.result.map fun _ => outcome.final := by
  obtain ⟨n, ends, bound⟩ := Worklist.run_ends (s := ⟨start, []⟩) g.search_pays trivial
  have unseen : g.unseen ⟨start, []⟩ ≤ g.flatten.length := List.countP_le_length
  rw [Nat.one_mul] at bound
  exact ⟨n, _, ends, Nat.le_trans bound (Nat.add_le_add_left unseen _), rfl⟩

end Graph

/-! ### Saturations -/

namespace Nfa

variable {a b : Nfa} {log : List Event}

theorem Rule.worklist_pays (rule : Rule) (labels : List Symbol) : (rule.worklist labels).Pays 2 :=
  fun ready ok => missing_add_length_le ready.1 ready.2 ok

/-- An item goes back to the end of the queue if and only if it added something. -/
theorem Rule.apply_returns {rule : Rule} {t : Transition} {more : List Transition}
    (ok : rule.apply t a = ⟨b, log, .ok more⟩) :
    more = [] ∧ b.transitions = a.transitions ∨
      more.getLast? = some t ∧ a.transitions.length < b.transitions.length := by
  obtain ⟨fresh, added, rfl⟩ := Rule.apply_ok ok
  obtain ⟨flat, _, _⟩ := addMissing_ok added
  cases fresh with
  | nil => exact .inl ⟨rfl, by rw [flat, List.append_nil]⟩
  | cons u fresh =>
    refine .inr ⟨List.getLast?_concat, ?_⟩
    rw [flat, List.length_append, List.length_cons]
    omega

end Nfa

/-! ### The subset construction -/

namespace Dfa.Store

variable {σ : Type} (store : Store σ)

theorem expansion_pays (a : Nfa) : (store.expansion a).Pays 1 := fun _ ok => by
  rw [Nat.one_mul, Nat.one_mul]
  exact unmet_add_length_le ok

/-- A step for the start, and one more at most for each set of states. -/
theorem one_add_unmet_le (a : Nfa) (start : StateId) (s : σ) :
    [start].length + 1 * store.unmet a.size s ≤ 1 + 2 ^ a.size := by
  rw [Nat.one_mul, ← StateSet.length_sublists 0 a.size]
  exact Nat.add_le_add_left List.countP_le_length 1

theorem expandAll_ends (a : Nfa) (start : StateId) (s : σ) :
    ∃ n, Ends (store.expand a) n [start] s (store.expandAll a start s) ∧ n ≤ 1 + 2 ^ a.size := by
  obtain ⟨n, ends, bound⟩ : ∃ n, Ends _ n [start] s (store.expandAll a start s) ∧ _ :=
    Worklist.run_ends (store.expansion_pays a) trivial
  exact ⟨n, ends, Nat.le_trans bound (store.one_add_unmet_le a start s)⟩

end Dfa.Store

/-! ### All loops -/

/-- A state is looked up before it is closed off. -/
def Nfa.Strict.viewSource (t : Transition) (a : Nfa) : Except Error Unit :=
  (a.state t.source).map fun _ => ()

/-- A state is looked up with its members before it is expanded. -/
def Dfa.Strict.viewMembers (a : Nfa) (i : StateId) (d : Dfa) : Except Error Unit := do
  let q ← d.state i
  let _ ← State.statesAt a q.members.toList
  return ()

namespace Nfa

/-- The loops of elimination and determinization end, whether sets are looked up in an index or not, and
also if every state is looked up before it is viewed. -/
structure LoopsEnd (a : Nfa) : Prop where
  closes : ∃ n outcome, Ends a.epsilonGraph.visit n a.initial.toList ⟨a.initial, []⟩ outcome ∧
    n ≤ a.initial.toList.length + a.epsilonGraph.flatten.length ∧
    a.epsilonClosure a.initial = outcome.result.map fun _ => outcome.final
  saturates : ∀ rule : Rule, ∃ n, Ends rule.apply n a.epsilonTransitions a (saturate rule a) ∧
    n ≤ a.epsilonTransitions.length + 2 * missing (.epsilon :: a.enteringSymbols) a
  saturatesStrictly : ∀ rule : Rule, ∃ n,
    Ends (looking Strict.viewSource rule.apply) n a.epsilonTransitions a (Strict.saturate rule a) ∧
      n ≤ a.epsilonTransitions.length + 2 * missing (.epsilon :: a.enteringSymbols) a
  /-- An item goes back to the end of the queue if and only if it added something. -/
  returns : ∀ (rule : Rule) {t b c log more}, rule.apply t b = ⟨c, log, .ok more⟩ →
    more = [] ∧ c.transitions = b.transitions ∨
      more.getLast? = some t ∧ b.transitions.length < c.transitions.length
  expands : ∀ start d, ∃ n, Ends (Dfa.expand a) n [start] d (Dfa.expandAll a start d) ∧
    n ≤ 1 + 2 ^ a.size
  expandsByIndex : ∀ start s, ∃ n, Ends (Dfa.Indexed.store.expand a) n [start] s
    (Dfa.Indexed.store.expandAll a start s) ∧ n ≤ 1 + 2 ^ a.size
  expandsStrictly : ∀ start d, ∃ n,
    Ends (looking (Dfa.Strict.viewMembers a) (Dfa.expand a)) n [start] d
      (Dfa.Strict.expandAll a start d) ∧ n ≤ 1 + 2 ^ a.size

theorem loops_end (a : Nfa) : LoopsEnd a where
  closes := a.epsilonGraph.explore_ends a.initial
  saturates rule := Worklist.run_ends (rule.worklist_pays _) _
  saturatesStrictly rule :=
    Worklist.run_ends (Worklist.Pays.guarded (rule.worklist_pays _) Strict.viewSource) _
  returns _ := Rule.apply_returns
  expands := Dfa.scan.expandAll_ends a
  expandsByIndex := Dfa.Indexed.store.expandAll_ends a
  expandsStrictly start d := by
    obtain ⟨n, ends, bound⟩ : ∃ n, Ends _ n [start] d (Dfa.Strict.expandAll a start d) ∧ _ :=
      Worklist.run_ends (Worklist.Pays.guarded (Dfa.scan.expansion_pays a) (Dfa.Strict.viewMembers a))
        trivial
    exact ⟨n, ends, Nat.le_trans bound (Dfa.scan.one_add_unmet_le a start d)⟩

end Nfa
end FiniteAutomata
