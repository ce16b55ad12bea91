/-!
Symbols label transitions. A symbol is a letter or the empty word; the empty word comes before
every letter, and letters compare by the code points of their labels.
-/

namespace FiniteAutomata

inductive Symbol where
  | epsilon
  | letter (label : String)
  deriving DecidableEq

namespace Symbol

def isEpsilon : Symbol → Bool
  | epsilon => true
  | letter _ => false

/-- The displayed text. A letter labelled "ε" looks like the empty word but is not it. -/
def label : Symbol → String
  | epsilon => "ε"
  | letter text => text

instance : Ord Symbol where
  compare
    | epsilon, epsilon => .eq
    | epsilon, letter _ => .lt
    | letter _, epsilon => .gt
    | letter x, letter y => compare x y

instance : LT Symbol := ltOfOrd

theorem isEpsilon_iff {x : Symbol} : x.isEpsilon = true ↔ x = epsilon := by
  cases x <;> simp [isEpsilon]

instance : Std.LawfulEqOrd Symbol where
  compare_self {x} := by
    cases x with
    | epsilon => rfl
    | letter x => exact @Std.ReflCmp.compare_self String compare _ x
  eq_of_compare {x y} h := by
    cases x <;> cases y <;> simp_all [compare]
    exact @Std.LawfulEqCmp.eq_of_compare String compare _ _ _ h

instance : Std.TransOrd Symbol where
  eq_swap {x y} := by
    cases x <;> cases y <;> try rfl
    exact @Std.OrientedCmp.eq_swap String compare _ _ _
  isLE_trans {x y z} h₁ h₂ := by
    cases x <;> cases y <;> cases z <;> simp_all [compare]
    exact @Std.TransCmp.isLE_trans String compare _ _ _ _ h₁ h₂

theorem lt_iff_compare {x y : Symbol} : x < y ↔ compare x y = .lt := Iff.rfl

end Symbol

/-- A word is read symbol by symbol. -/
abbrev Word := List Symbol

def Word.shown (w : Word) : String := "\"" ++ String.join (w.map Symbol.label) ++ "\""

/-- A word is shown label by label, between quotation marks. -/
theorem Word.toList_shown (w : Word) : w.shown.toList =
    "\"".toList ++ (w.flatMap fun x => x.label.toList) ++ "\"".toList := by
  rw [shown, String.toList_append, String.toList_append, String.toList_join, List.flatMap_map]

end FiniteAutomata
