import FiniteAutomata.Proofs.Reachable

/-!
Edits are done completely or not at all. Adding and removing a transition changes up to four parts of
an automaton one after the other, and nothing is taken back when a later change fails; but on
well-formed automata only the first one can.
-/

namespace FiniteAutomata.Nfa

/-- Where there is a fault, the edit is refused and changes and reports nothing; no state is looked
up that is missing. Elsewhere it succeeds and has its whole effect. -/
structure AllOrNothing {α : Type} (edit : Edit Nfa α) (a : Nfa) (fault : Prop) (refusal : Error)
    (effect : Nfa) : Prop where
  nothing : fault → edit a = ⟨a, [], .error refusal⟩
  inRange : ∀ q, refusal ≠ .outOfRange q
  all : ¬ fault → ∃ log answer, edit a = ⟨effect, log, .ok answer⟩

variable {a : Nfa}

theorem allOrNothing_addState (a : Nfa) (name : String) (kind : Kind) :
    AllOrNothing (addState name kind) a (name ∈ a.states.map State.name) (.duplicateState name)
      (a.enlarged name kind) where
  nothing taken := addState_taken taken kind
  inRange _ := by simp
  all free := ⟨_, _, addState_free free kind⟩

theorem allOrNothing_addSymbol (a : Nfa) (x : Symbol) :
    AllOrNothing (addSymbol x) a (x = .epsilon) .epsilonInAlphabet
      { a with alphabet := a.alphabet.learn x } where
  nothing epsilon := epsilon ▸ addSymbol_epsilon a
  inRange _ := by simp
  all letter := ⟨_, _, addSymbol_letter letter⟩

theorem allOrNothing_addInitial (a : Nfa) (q : StateId) :
    AllOrNothing (addInitial q) a (¬ q < a.size) (.unknownState (numbered q))
      { a with initial := a.initial.insert q } where
  nothing missing := addInitial_of_not_lt missing
  inRange _ := by simp
  all exist := ⟨_, _, addInitial_of_lt (Decidable.not_not.mp exist)⟩

namespace WellFormed

/-- The source is looked for first. -/
theorem allOrNothing_addTransition (h : WellFormed a) (t : Transition) :
    AllOrNothing (Nfa.addTransition t) a (¬ (t.source < a.size ∧ t.target < a.size))
      (.unknownState (Nfa.numbered (if t.source < a.size then t.target else t.source)))
      (if t ∈ a.transitions then a else a.including t) where
  nothing missing := by
    by_cases source : t.source < a.size
    · have target : ¬ t.target < a.size := fun target => missing ⟨source, target⟩
      rw [if_pos source, addTransition_no_target source target]
    · rw [if_neg source, addTransition_no_source source]
  inRange _ := by simp
  all exist := by
    obtain ⟨source, target⟩ := Decidable.not_not.mp exist
    by_cases listed : t ∈ a.transitions
    · rw [if_pos listed]
      exact ⟨_, _, addTransition_present h listed⟩
    · rw [if_neg listed]
      exact ⟨_, _, addTransition_absent h source target listed⟩

theorem allOrNothing_removeTransition (h : WellFormed a) (t : Transition) :
    AllOrNothing (Nfa.removeTransition t) a (t ∉ a.transitions)
      (.notRecorded (a.nameOf t.source) t.text) (a.excluding t) where
  nothing absent := removeTransition_absent absent
  inRange _ := by simp
  all listed := ⟨_, _, removeTransition_present h (Decidable.not_not.mp listed)⟩

end WellFormed

/-- Each edit has one fault, whatever regular operations came before it. -/
theorem Reachable.all_or_nothing (h : Reachable a) :
    (∀ name kind, AllOrNothing (addState name kind) a (name ∈ a.states.map State.name)
      (.duplicateState name) (a.enlarged name kind)) ∧
    (∀ x, AllOrNothing (addSymbol x) a (x = .epsilon) .epsilonInAlphabet
      { a with alphabet := a.alphabet.learn x }) ∧
    (∀ q, AllOrNothing (addInitial q) a (¬ q < a.size) (.unknownState (numbered q))
      { a with initial := a.initial.insert q }) ∧
    (∀ t, AllOrNothing (addTransition t) a (¬ (t.source < a.size ∧ t.target < a.size))
      (.unknownState (numbered (if t.source < a.size then t.target else t.source)))
      (if t ∈ a.transitions then a else a.including t)) ∧
    ∀ t, AllOrNothing (removeTransition t) a (t ∉ a.transitions)
      (.notRecorded (a.nameOf t.source) t.text) (a.excluding t) :=
  ⟨allOrNothing_addState a, allOrNothing_addSymbol a, allOrNothing_addInitial a,
    h.wellFormed.allOrNothing_addTransition, h.wellFormed.allOrNothing_removeTransition⟩

theorem all_or_nothing_detour :
    addTransition ⟨0, .letter "x", 7⟩ (run {} detour) =
      ⟨run {} detour, [], .error (.unknownState (numbered 7))⟩ ∧
    ∃ log answer, removeTransition ⟨1, .epsilon, 0⟩ (run {} detour) =
      ⟨(run {} detour).excluding ⟨1, .epsilon, 0⟩, log, .ok answer⟩ := by
  have reachable : Reachable (run {} detour) := ⟨detour, by decide, rfl⟩
  obtain ⟨_, _, _, adds, removes⟩ := Reachable.all_or_nothing reachable
  exact ⟨(adds ⟨0, .letter "x", 7⟩).nothing (by decide),
    (removes ⟨1, .epsilon, 0⟩).all (by decide)⟩

end FiniteAutomata.Nfa
