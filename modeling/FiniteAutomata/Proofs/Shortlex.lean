import FiniteAutomata.Symbol
import Mathlib.Data.List.Shortlex

/-!
The shortlex order of words: shorter words come first, words of the same length are compared symbol
by symbol. What is added at the end decides only between equal words.
-/

namespace FiniteAutomata

namespace Symbol

variable {x y z : Symbol}

theorem lt_trans (h₁ : x < y) (h₂ : y < z) : x < z :=
  @Std.TransCmp.lt_trans Symbol compare _ _ _ _ h₁ h₂

theorem lt_asymm (h : x < y) : ¬ y < x := by
  intro back
  rw [lt_iff_compare] at h back
  rw [@Std.OrientedCmp.eq_swap Symbol compare _ y x, h] at back
  cases back

instance : @Std.Asymm Symbol (· < ·) := ⟨fun _ _ => lt_asymm⟩

end Symbol

namespace Word

/-- In shortlex order. -/
def Before (v w : Word) : Prop := List.Shortlex (· < ·) v w

variable {u v w : Word} {x y : Symbol}

theorem Before.asymm (h : v.Before w) : ¬ w.Before v :=
  Std.Asymm.asymm (r := List.Shortlex (· < ·)) v w h

theorem Before.trans (h₁ : u.Before v) (h₂ : v.Before w) : u.Before w := by
  apply List.shortlex_def.mpr
  rcases List.shortlex_def.mp h₁ with shorter | ⟨same, less⟩
  · rcases List.shortlex_def.mp h₂ with shorter' | ⟨same', _⟩
    · exact .inl (by omega)
    · exact .inl (by omega)
  · rcases List.shortlex_def.mp h₂ with shorter' | ⟨same', less'⟩
    · exact .inl (by omega)
    · exact .inr ⟨by omega, List.lex_trans Symbol.lt_trans less less'⟩

theorem nil_before_concat (w : Word) (x : Symbol) : Before [] (w ++ [x]) := by
  apply List.Shortlex.of_length_lt
  simp

/-- Words that differ are told apart without their last symbols. -/
theorem Before.concat (h : v.Before w) (x y : Symbol) : (v ++ [x]).Before (w ++ [y]) := by
  rcases List.shortlex_def.mp h with shorter | ⟨same, less⟩
  · apply List.Shortlex.of_length_lt
    simpa using shorter
  · apply List.Shortlex.of_lex
    · simpa using same
    · clear h
      induction less with
      | nil => cases same
      | rel less => exact .rel less
      | cons _ ih => exact .cons (ih (Nat.succ.inj same))

theorem before_concat (w : Word) (h : x < y) : (w ++ [x]).Before (w ++ [y]) :=
  List.Shortlex.append_left ((List.shortlex_singleton_iff x y).mpr h) w

end Word
end FiniteAutomata
