import FiniteAutomata.Dfa.Basic

/-!
Histories of a deterministic automaton: states are interned and edges are added in any order.
-/

namespace FiniteAutomata.Dfa

inductive Operation where
  /-- Names and kinds are taken from the given automaton. -/
  | intern (members : StateSet) (a : Nfa)
  | addTransition (t : Transition)

inductive Answer where
  | state (q : StateId) (fresh : Bool)
  | flag (b : Bool)
  deriving DecidableEq

def perform : Operation → Edit Dfa Answer
  | .intern members a => (fun found => .state found.1 found.2) <$> intern members a
  | .addTransition t => .flag <$> addTransition t

/-- The members exist in the given automaton, or the ends of the edge do. -/
def Operation.Possible (d : Dfa) : Operation → Prop
  | .intern members a => ∀ q ∈ members.toList, q < a.size
  | .addTransition t => t.source < d.size ∧ t.target < d.size

instance Operation.decidablePossible (d : Dfa) : (op : Operation) → Decidable (op.Possible d)
  | .intern members a => inferInstanceAs (Decidable (∀ q ∈ members.toList, q < a.size))
  | .addTransition t => inferInstanceAs (Decidable (t.source < d.size ∧ t.target < d.size))

/-- Goes on after operations that fail. -/
def run (d : Dfa) (history : List Operation) : Dfa :=
  history.foldl (fun d op => (perform op d).final) d

end FiniteAutomata.Dfa
