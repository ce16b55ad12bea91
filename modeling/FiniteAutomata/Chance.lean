import FiniteAutomata.Nfa.Declaration
import FiniteAutomata.Nfa.Saturation

/-!
Automata and words drawn at random. What is drawn is a value: whether each state accepts, and for
each transition a level from zero up to one. A transition is put in if the density lies above its
level.
-/

namespace FiniteAutomata

inductive Density where
  | finite (value : Rat)
  | infinite (positive : Bool)
  | undefined

/-- A draw succeeds below the density. Without a density it fails. -/
def Density.covers (d : Density) (level : Rat) : Bool :=
  match d with
  | finite value => level < value
  | infinite positive => positive
  | undefined => false

structure Chance where
  accepting : StateId → Bool
  level : Transition → Rat
  level_nonneg : ∀ t, 0 ≤ level t
  level_lt_one : ∀ t, level t < 1

namespace Chance

def maxLetters : Nat := 26

/-- The first letters from "a" on. -/
def letters (count : Nat) : List Symbol :=
  (List.range count).map fun i => .letter (String.singleton (Char.ofNat ('a'.toNat + i)))

/-- Every transition between the states: on each letter, and on epsilon to another state. -/
def candidates (states symbols : Nat) : List Transition :=
  (List.range states).flatMap fun p => (List.range states).flatMap fun q =>
    (letters symbols).map (fun x => ⟨p, x, q⟩) ++ if p = q then [] else [⟨p, .epsilon, q⟩]

def draws (c : Chance) (density epsilonDensity : Density) (t : Transition) : Bool :=
  (if t.isEpsilon then epsilonDensity else density).covers (c.level t)

/-- The first state is initial, if there is one. -/
def start (states : Nat) : Edit Nfa Unit :=
  if 0 < states then do
    let _ ← Nfa.addInitial 0
    return ()
  else return ()

def edit (c : Chance) (states symbols : Nat) (density epsilonDensity : Density) :
    Edit Nfa Unit := do
  Nfa.addSymbols (letters symbols)
  Nfa.addStates ((List.range states).map fun i =>
    ("q" ++ toString i, .ofAccepting (c.accepting i)))
  let _ ← Nfa.addMissing ((candidates states symbols).filter (c.draws density epsilonDensity))
  start states
  let a ← Edit.get
  Edit.emit (.drew a.size a.transitions.length)

/-- There are no more than 26 letters to choose from. -/
def draw (c : Chance) (states symbols : Nat) (density epsilonDensity : Density) : Outcome Nfa Unit :=
  if maxLetters < symbols then ⟨{}, [], .error (.tooManyLetters symbols)⟩
  else c.edit states symbols density epsilonDensity {}

/-- What is drawn, without what is reported on the way. -/
def automaton (c : Chance) (states symbols : Nat) (density epsilonDensity : Density) :
    Except Error Nfa :=
  let drawn := c.draw states symbols density epsilonDensity
  drawn.result.map fun _ => drawn.final

def mixed (seed position : UInt64) : UInt64 :=
  let sum := (seed + 1) * 6364136223846793005 + (position + 1) * 1442695040888963407
  (sum ^^^ (sum >>> 29)) * 3935559000370003845

/-- Numbers that look random, for a seed and a position. -/
def scramble (seed position : Nat) : Nat := (mixed seed.toUInt64 position.toUInt64 >>> 11).toNat

def levels : Nat := 9007199254740992

theorem scramble_lt (seed position : Nat) : scramble seed position < levels := by
  have := UInt64.toNat_lt (mixed seed.toUInt64 position.toUInt64)
  simp only [scramble, levels, UInt64.toNat_shiftRight, Nat.shiftRight_eq_div_pow]
  exact Nat.div_lt_of_lt_mul this

def position (t : Transition) : Nat :=
  t.symbol.label.toList.foldl (fun n c => n * 1114112 + c.toNat)
    ((t.source * 65537 + t.target) * 2 + if t.isEpsilon then 1 else 0)

def ofSeed (seed : Nat) : Chance where
  accepting q := scramble seed q % 2 = 1
  level t := (scramble seed (position t) : Rat) / (levels : Rat)
  level_nonneg t := by
    rw [← Rat.not_lt, Rat.div_lt_iff (Rat.natCast_lt_natCast.mpr (by decide)), Rat.zero_mul,
      Rat.not_lt]
    exact Rat.natCast_nonneg
  level_lt_one t := by
    rw [Rat.div_lt_iff (Rat.natCast_lt_natCast.mpr (by decide)), Rat.one_mul]
    exact Rat.natCast_lt_natCast.mpr (scramble_lt _ _)

/-- A word whose length is drawn first, from zero up to the given length. Without letters nothing
is drawn. -/
def word (pick : Nat → Nat) (a : Alphabet) (maxLength : Nat) : Word :=
  if a.letters = [] then []
  else (List.range (pick 0 % (maxLength + 1))).filterMap fun i =>
    a.letters[pick (i + 1) % a.letters.length]?

end Chance
end FiniteAutomata
