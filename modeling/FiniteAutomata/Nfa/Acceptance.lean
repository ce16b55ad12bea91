import FiniteAutomata.Nfa.Elimination

/-!
Acceptance by simulation. A configuration holds every state the automaton can be in after reading
a word, with epsilon transitions taken for free.
-/

namespace FiniteAutomata.Nfa

def close (a : Nfa) (states : StateSet) : Except Error StateSet :=
  (a.epsilonClosure states).map Search.seen

/-- The targets of the transitions on a symbol. -/
def move (a : Nfa) (states : StateSet) (x : Symbol) : StateSet :=
  .ofList (states.toList.flatMap fun q => (a.outboundOn q x).map Transition.target)

def readFrom (a : Nfa) (states : StateSet) : Word → Except Error StateSet
  | [] => .ok states
  | x :: rest => do a.readFrom (← a.close (a.move states x)) rest

def configuration (a : Nfa) (w : Word) : Except Error StateSet := do
  a.readFrom (← a.close a.initial) w

/-- Fails if a transition leads to a state that does not exist. -/
def accepts (a : Nfa) (w : Word) : Except Error Bool := do
  return (← a.configuration w).any a.isAccepting

end FiniteAutomata.Nfa
