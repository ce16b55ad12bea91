import FiniteAutomata.Symbol

/-!
Why an operation on automata is refused.
-/

namespace FiniteAutomata

inductive Error where
  | epsilonRemains (transition : String)
  | secondSuccessor (state : String) (symbol : Symbol) (transition : String)
  | wrongSource (state transition : String)
  | wrongTarget (state transition : String)
  | notRecorded (state transition : String)
  | unknownState (name : String)
  | duplicateState (name : String)
  | epsilonInAlphabet
  | hasEpsilon (count : Nat)
  | tooManyLetters (count : Nat)
  | noSuchFixture (index : Nat)
  /-- A state is read that the automaton does not have. -/
  | outOfRange (index : Nat)
  deriving DecidableEq

def quoted (text : String) : String := "`" ++ text ++ "`"

def Error.message : Error → String
  | epsilonRemains t => "epsilon transition " ++ quoted t ++ " is left over after elimination"
  | secondSuccessor q x t =>
    "superstate " ++ quoted q ++ " already has an outbound transition on " ++ quoted x.label ++
      ", adding " ++ quoted t ++ " violates determinism"
  | wrongSource q t =>
    "cannot attach " ++ quoted t ++ " to state " ++ quoted q ++ ": source does not match"
  | wrongTarget q t =>
    "cannot attach " ++ quoted t ++ " to state " ++ quoted q ++ ": target does not match"
  | notRecorded q t =>
    "transition " ++ quoted t ++ " is not recorded at state " ++ quoted q
  | unknownState name => "state " ++ quoted name ++ " does not exist"
  | duplicateState name => "state " ++ quoted name ++ " is declared more than once"
  | epsilonInAlphabet => "epsilon cannot be part of an alphabet"
  | hasEpsilon n =>
    "automaton still has " ++ toString n ++
      " epsilon transition(s), eliminate them before determinizing"
  | tooManyLetters n => "cannot generate " ++ toString n ++ " letters, at most 26 are available"
  | noSuchFixture n => "there is no fixture with index " ++ toString n
  | outOfRange n => "there is no state with index " ++ toString n

end FiniteAutomata
