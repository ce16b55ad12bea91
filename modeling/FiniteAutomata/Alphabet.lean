import FiniteAutomata.Error

/-!
Alphabets list letters in the order in which they were first added. The empty word is no letter.
-/

namespace FiniteAutomata

structure Alphabet where
  letters : List Symbol := []
  deriving DecidableEq

namespace Alphabet

def contains (a : Alphabet) (x : Symbol) : Bool := x ∈ a.letters

def size (a : Alphabet) : Nat := a.letters.length

/-- The flag tells whether the letter is new. -/
def insert (a : Alphabet) (x : Symbol) : Except Error (Alphabet × Bool) :=
  if x = .epsilon then .error .epsilonInAlphabet
  else if x ∈ a.letters then .ok (a, false)
  else .ok ({ letters := a.letters ++ [x] }, true)

def insertAll (a : Alphabet) : List Symbol → Except Error Alphabet
  | [] => .ok a
  | x :: rest => do (← a.insert x).1.insertAll rest

def ofList (letters : List Symbol) : Except Error Alphabet := insertAll {} letters

def shown (a : Alphabet) : String :=
  "\x7b" ++ ", ".intercalate (a.letters.map Symbol.label) ++ "\x7d"

end Alphabet
end FiniteAutomata
