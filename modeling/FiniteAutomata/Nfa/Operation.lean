import FiniteAutomata.Nfa.Elimination

/-!
Histories of an automaton: the operations on it, one after the other, from the empty automaton on.
Edits of a single state's indices are operations too, but not regular ones: they can leave the
indices and the list of transitions in disagreement.
-/

namespace FiniteAutomata.Nfa

inductive Operation where
  | addState (name : String) (kind : Kind)
  | addSymbol (x : Symbol)
  | addInitial (q : StateId)
  | addTransition (t : Transition)
  | removeTransition (t : Transition)
  | promote (q : StateId)
  | eliminateEpsilons
  | editState (q : StateId) (edit : State.Operation)

inductive Answer where
  | state (q : StateId)
  | flag (b : Bool)
  | done
  deriving DecidableEq

def Operation.isRegular : Operation → Bool
  | editState _ _ => false
  | _ => true

def perform : Operation → Edit Nfa Answer
  | .addState name kind => .state <$> addState name kind
  | .addSymbol x => .flag <$> addSymbol x
  | .addInitial q => .flag <$> addInitial q
  | .addTransition t => .flag <$> addTransition t
  | .removeTransition t => (fun _ => .done) <$> removeTransition t
  | .promote q => .flag <$> promote q
  | .eliminateEpsilons => (fun _ => .done) <$> eliminateEpsilons
  | .editState q edit => (fun _ => .done) <$> editState q (·.perform edit)

/-- Goes on after operations that fail. -/
def run (a : Nfa) (history : List Operation) : Nfa :=
  history.foldl (fun a op => (perform op a).final) a

def answers (a : Nfa) : List Operation → List (Except Error Answer)
  | [] => []
  | op :: rest => (perform op a).result :: answers (perform op a).final rest

/-- What regular operations make of the empty automaton. -/
def Reachable (a : Nfa) : Prop :=
  ∃ history : List Operation, (∀ op ∈ history, op.isRegular) ∧ a = run {} history

end FiniteAutomata.Nfa
