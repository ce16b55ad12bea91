import FiniteAutomata.Dfa.Acceptance
import FiniteAutomata.Nfa.Acceptance

/-!
Bounded checks: do two automata agree on all words up to a length, and can every state be reached?
A check that fails names the first word, shorter words first, on which the automata disagree.
-/

namespace FiniteAutomata

namespace Alphabet

/-- In the order of the letters, the last letter varies fastest. -/
def wordsOfLength (a : Alphabet) : Nat → List Word
  | 0 => [[]]
  | n + 1 => a.letters.flatMap fun x => (a.wordsOfLength n).map (x :: ·)

/-- Shorter words come first. -/
def words (a : Alphabet) (maxLength : Nat) : List Word :=
  (List.range (maxLength + 1)).flatMap a.wordsOfLength

end Alphabet

inductive Finding where
  | disagree (w : Word)
  | determinizedDisagrees (w : Word)
  | unreachable
  deriving DecidableEq

def Finding.message : Finding → String
  | disagree w => "automata disagree on " ++ w.shown
  | determinizedDisagrees w => "determinized automaton disagrees on " ++ w.shown
  | unreachable => "some superstates are unreachable"

/-- The first member that passes a test. -/
def firstWhere {α : Type} (test : α → Except Error Bool) : List α → Except Error (Option α)
  | [] => .ok none
  | x :: rest => do if ← test x then return some x else firstWhere test rest

def Nfa.checkEquivalent (a b : Nfa) (maxLength : Nat) : Except Error (Option Finding) := do
  let word ← firstWhere (fun w => return (← a.accepts w) != (← b.accepts w))
    (a.alphabet.words maxLength)
  return word.map .disagree

def Dfa.checkEquivalent (a : Nfa) (d : Dfa) (maxLength : Nat) : Except Error (Option Finding) := do
  let word ← firstWhere (fun w => return (← a.accepts w) != d.accepts w)
    (a.alphabet.words maxLength)
  return word.map .determinizedDisagrees

/-- Counts the states that a search from the initial one meets. -/
def Dfa.checkReachable (d : Dfa) : Except Error (Option Finding) := do
  return if (← d.reachable).toList.length = d.size then none else some .unreachable

end FiniteAutomata
