import FiniteAutomata.Dfa.Operation

/-!
Deterministic automata that keep an index from sets of members to the states that have them, and
look there instead of at all states.
-/

namespace FiniteAutomata.Dfa

structure Indexed where
  dfa : Dfa
  index : List (StateSet × StateId) := []

namespace Indexed

/-- No states yet. -/
def emptyFor (a : Nfa) : Indexed := { dfa := Dfa.emptyFor a }

/-- Fails if the index leads to a state that does not exist. -/
def find (s : Indexed) (members : StateSet) : Except Error (Option State) :=
  match s.index.lookup members with
  | some q => some <$> s.dfa.state q
  | none => .ok none

/-- The state with the given members; the flag tells whether it is new. A set that is new is entered
into the index first, and stays there if one of its members does not exist. -/
def intern (members : StateSet) (a : Nfa) : Edit Indexed (StateId × Bool) := fun s =>
  match s.index.lookup members with
  | some q => ⟨s, [], .ok (q, false)⟩
  | none =>
    let entered := { s with index := s.index ++ [(members, s.dfa.size)] }
    match State.ofMembers s.dfa.size members a with
    | .ok state => ⟨{ entered with dfa := { s.dfa with states := s.dfa.states ++ [state] } }, [],
        .ok (s.dfa.size, true)⟩
    | .error e => ⟨entered, [], .error e⟩

/-- The flag tells whether the transition is new. -/
def addTransition (t : Transition) : Edit Indexed Bool := fun s =>
  let added := Dfa.addTransition t s.dfa
  ⟨{ s with dfa := added.final }, added.log, added.result⟩

/-! ### Histories -/

def perform : Operation → Edit Indexed Answer
  | .intern members a => (fun found => .state found.1 found.2) <$> intern members a
  | .addTransition t => .flag <$> addTransition t

/-- Goes on after operations that fail. -/
def run (s : Indexed) (history : List Operation) : Indexed :=
  history.foldl (fun s op => (perform op s).final) s

/-- Every operation is possible when its turn comes. -/
def AllPossible (s : Indexed) : List Operation → Prop
  | [] => True
  | op :: rest => op.Possible s.dfa ∧ AllPossible (perform op s).final rest

instance AllPossible.decidable (s : Indexed) : (history : List Operation) →
    Decidable (AllPossible s history)
  | [] => isTrue trivial
  | op :: rest =>
    have := AllPossible.decidable (perform op s).final rest
    inferInstanceAs (Decidable (op.Possible s.dfa ∧ AllPossible (perform op s).final rest))

/-- What possible operations make of the automaton without states. -/
def Assembled (a : Nfa) (s : Indexed) : Prop :=
  ∃ history : List Operation, AllPossible (emptyFor a) history ∧ s = run (emptyFor a) history

end Indexed
end FiniteAutomata.Dfa
