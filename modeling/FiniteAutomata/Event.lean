/-!
What is reported while automata are drawn, rid of their epsilon transitions and determinized.
-/

namespace FiniteAutomata

inductive Level where
  | info
  | debug
  | trace
  deriving DecidableEq

def Level.name : Level → String
  | info => "INFO"
  | debug => "DEBUG"
  | trace => "TRACE"

inductive Event where
  | drew (states transitions : Nat)
  | eliminating (epsilons states : Nat)
  | initialThroughEpsilon (state : String)
  | initialClosed (count : Nat)
  | added (transition : String)
  | epsilonClosed (count : Nat)
  | acceptingThroughEpsilon (state : String)
  | promoted (count : Nat)
  | shortcutsAdded (count : Nat)
  | discarded (count : Nat)
  | eliminated (transitions : Nat)
  | discovered (state : String)
  | determinized (superstates transitions states : Nat)
  | finished (superstates : Nat)
  deriving DecidableEq

namespace Event

def level : Event → Level
  | eliminated _ | finished _ => .info
  | initialThroughEpsilon _ | added _ | acceptingThroughEpsilon _ | discovered _ => .trace
  | _ => .debug

def text : Event → String
  | drew n k =>
    "drew random automaton with " ++ toString n ++ " states and " ++ toString k ++ " transitions"
  | eliminating k n =>
    "eliminating " ++ toString k ++ " epsilon transition(s) from automaton with " ++
      toString n ++ " states"
  | initialThroughEpsilon q => "state " ++ q ++ " is initial through epsilon"
  | initialClosed k => "epsilon closure added " ++ toString k ++ " initial state(s)"
  | added t => "added transition " ++ t
  | epsilonClosed k => "epsilon closure synthesized " ++ toString k ++ " transition(s)"
  | acceptingThroughEpsilon q => "state " ++ q ++ " is accepting through epsilon"
  | promoted k => "promoted " ++ toString k ++ " state(s) to accepting"
  | shortcutsAdded k => "materialized " ++ toString k ++ " shortcut transition(s)"
  | discarded k => "discarded " ++ toString k ++ " epsilon transition(s)"
  | eliminated k => "epsilon free automaton has " ++ toString k ++ " transitions"
  | discovered q => "discovered superstate " ++ q
  | determinized k m n =>
    "subset construction produced " ++ toString k ++ " superstates and " ++ toString m ++
      " transitions from " ++ toString n ++ " states"
  | finished k => "determinized automaton has " ++ toString k ++ " superstates"

end Event
end FiniteAutomata
