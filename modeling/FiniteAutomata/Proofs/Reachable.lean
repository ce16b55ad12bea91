import FiniteAutomata.Proofs.Elimination

/-!
Every regular operation keeps an automaton well-formed, whether it succeeds or fails, so whatever
regular operations make of the empty automaton is well-formed.
-/

namespace FiniteAutomata.Nfa

variable {a : Nfa}

namespace WellFormed

theorem enlarged (h : WellFormed a) {name : String} (free : name ∉ a.states.map State.name)
    (kind : Kind) : WellFormed (a.enlarged name kind) := by
  have larger : ∀ {q : StateId}, q < a.size → q < (a.enlarged name kind).size := by
    intro q exist
    simp only [size, Nfa.enlarged, List.length_append, List.length_singleton]
    exact Nat.lt_succ_of_lt exist
  constructor
  case numbered => exact h.numbered.append rfl
  case names =>
    rw [Nfa.enlarged, List.map_append]
    exact nodup_concat h.names free
  case mirrored =>
    intro q member
    rcases List.mem_append.mp member with old | new
    · exact h.mirrored q old
    · rw [List.mem_singleton.mp new]
      refine State.mirrors_fresh fun t listed => ?_
      obtain ⟨source, target⟩ := h.ends t listed
      exact ⟨Nat.ne_of_lt source, Nat.ne_of_lt target⟩
  case distinct => exact h.distinct
  case ends => exact fun t listed => ⟨larger (h.ends t listed).1, larger (h.ends t listed).2⟩
  case starts => exact fun q member => larger (h.starts q member)
  case letters => exact h.letters
  case proper => exact h.proper
  case known => exact h.known

theorem addState (h : WellFormed a) (name : String) (kind : Kind) :
    WellFormed (addState name kind a).final := by
  by_cases taken : name ∈ a.states.map State.name
  · rw [addState_taken taken]
    exact h
  · rw [addState_free taken]
    exact h.enlarged taken kind

theorem addSymbol (h : WellFormed a) (x : Symbol) : WellFormed (addSymbol x a).final := by
  by_cases epsilon : x = .epsilon
  · rw [epsilon, addSymbol_epsilon]
    exact h
  · rw [addSymbol_letter epsilon]
    refine { h with letters := Alphabet.nodup_learn h.letters, proper := ?_, known := ?_ }
    · intro member
      rcases Alphabet.mem_learn.mp member with old | ⟨same, letter⟩
      · exact h.proper old
      · exact letter same.symm
    · exact fun t listed letter => Alphabet.mem_learn.mpr (.inl (h.known t listed letter))

theorem insert_initial (h : WellFormed a) {q : StateId} (exist : q < a.size) :
    WellFormed { a with initial := a.initial.insert q } := by
  refine { h with starts := fun p member => ?_ }
  rcases StateSet.mem_insert.mp member with rfl | member
  · exact exist
  · exact h.starts p member

theorem addInitial (h : WellFormed a) (q : StateId) : WellFormed (addInitial q a).final := by
  by_cases exist : q < a.size
  · rw [addInitial_of_lt exist]
    exact h.insert_initial exist
  · rw [addInitial_of_not_lt exist]
    exact h

theorem addTransition (h : WellFormed a) (t : Transition) :
    WellFormed (addTransition t a).final := by
  by_cases source : t.source < a.size
  · by_cases target : t.target < a.size
    · by_cases listed : t ∈ a.transitions
      · rw [addTransition_present h listed]
        exact h
      · rw [addTransition_absent h source target listed]
        exact h.including source target listed
    · rw [addTransition_no_target source target]
      exact h
  · rw [addTransition_no_source source]
    exact h

theorem removeTransition (h : WellFormed a) (t : Transition) :
    WellFormed (removeTransition t a).final := by
  by_cases listed : t ∈ a.transitions
  · rw [removeTransition_present h listed]
    exact h.excluding listed
  · rw [removeTransition_absent listed]
    exact h

theorem promote (h : WellFormed a) (q : StateId) : WellFormed (promote q a).final := by
  by_cases exist : q < a.size
  · rw [promote_eq h exist]
    exact h.promoting q
  · rw [promote_missing exist]
    exact h

theorem perform (h : WellFormed a) {op : Operation} (regular : op.isRegular) :
    WellFormed (perform op a).final := by
  cases op with
  | addState name kind =>
    rw [Nfa.perform, Edit.map_final]
    exact h.addState name kind
  | addSymbol x =>
    rw [Nfa.perform, Edit.map_final]
    exact h.addSymbol x
  | addInitial q =>
    rw [Nfa.perform, Edit.map_final]
    exact h.addInitial q
  | addTransition t =>
    rw [Nfa.perform, Edit.map_final]
    exact h.addTransition t
  | removeTransition t =>
    rw [Nfa.perform, Edit.map_final]
    exact h.removeTransition t
  | promote q =>
    rw [Nfa.perform, Edit.map_final]
    exact h.promote q
  | eliminateEpsilons =>
    obtain ⟨b, log, ran, wellFormed, _⟩ := h.eliminateEpsilons
    rw [Nfa.perform, Edit.map_final, ran]
    exact wellFormed
  | editState q edit => cases regular

theorem run {history : List Operation} (h : WellFormed a) (regular : ∀ op ∈ history, op.isRegular) :
    WellFormed (run a history) := by
  induction history generalizing a with
  | nil => exact h
  | cons op rest ih =>
    exact ih (h.perform (regular op List.mem_cons_self))
      fun op member => regular op (List.mem_cons_of_mem _ member)

end WellFormed

theorem Reachable.wellFormed (h : Reachable a) : WellFormed a := by
  obtain ⟨history, regular, rfl⟩ := h
  exact wellFormed_empty.run regular

/-- Elimination computes its declarative result on whatever operations lead to. -/
theorem Reachable.eliminateEpsilons_eliminates (h : Reachable a) :
    ∃ b log, eliminateEpsilons a = ⟨b, log, .ok ()⟩ ∧ Eliminates a b := by
  obtain ⟨b, log, ran, _, eliminates⟩ := h.wellFormed.eliminateEpsilons
  exact ⟨b, log, ran, eliminates⟩

/-- A letter between two epsilon transitions, the first of which lies on a cycle. -/
def detour : List Operation := [
  .addState "p" .ordinary, .addState "q" .ordinary, .addState "r" .ordinary,
  .addState "s" .accepting, .addInitial 0, .addTransition ⟨0, .epsilon, 1⟩,
  .addTransition ⟨1, .epsilon, 0⟩, .addTransition ⟨1, .letter "x", 2⟩,
  .addTransition ⟨2, .epsilon, 3⟩]

theorem eliminateEpsilons_detour :
    ∃ b log, eliminateEpsilons (run {} detour) = ⟨b, log, .ok ()⟩ ∧ Eliminates (run {} detour) b :=
  Reachable.eliminateEpsilons_eliminates ⟨detour, by decide, rfl⟩

end FiniteAutomata.Nfa
