import FiniteAutomata.Symbol

/-!
Finite maps keyed by symbols, listed in the order of their keys: epsilon first, then the letters.
Two maps with the same entries are equal.
-/

namespace FiniteAutomata

structure SymbolMap (β : Type) where
  entries : List (Symbol × β) := []
  ascending : entries.Pairwise (·.1 < ·.1) := by exact .nil

namespace SymbolMap

variable {β : Type}

instance [DecidableEq β] : DecidableEq (SymbolMap β)
  | ⟨k, _⟩, ⟨l, _⟩ => if h : k = l then isTrue (by subst h; rfl) else isFalse (by simp [h])

instance : EmptyCollection (SymbolMap β) := ⟨{}⟩

def get? (m : SymbolMap β) (x : Symbol) : Option β := m.entries.lookup x

def keys (m : SymbolMap β) : List Symbol := m.entries.map Prod.fst

def values (m : SymbolMap β) : List β := m.entries.map Prod.snd

def place (x : Symbol) (v : β) : List (Symbol × β) → List (Symbol × β)
  | [] => [(x, v)]
  | (y, w) :: rest =>
    match compare x y with
    | .lt => (x, v) :: (y, w) :: rest
    | .eq => (x, v) :: rest
    | .gt => (y, w) :: place x v rest

theorem mem_place {x : Symbol} {v : β} {l : List (Symbol × β)} {e : Symbol × β}
    (h : e ∈ place x v l) : e = (x, v) ∨ e ∈ l := by
  induction l with
  | nil => simpa [place] using h
  | cons f rest ih =>
    obtain ⟨y, w⟩ := f
    simp only [place] at h
    split at h <;> simp only [List.mem_cons] at h ⊢
    · exact h
    · rcases h with h | h
      · exact .inl h
      · exact .inr (.inr h)
    · rcases h with h | h
      · exact .inr (.inl h)
      · rcases ih h with h | h
        · exact .inl h
        · exact .inr (.inr h)

theorem pairwise_place {x : Symbol} {v : β} {l : List (Symbol × β)}
    (h : l.Pairwise (·.1 < ·.1)) : (place x v l).Pairwise (·.1 < ·.1) := by
  induction l with
  | nil => simp [place]
  | cons f rest ih =>
    obtain ⟨y, w⟩ := f
    rw [List.pairwise_cons] at h
    simp only [place]
    split
    · rename_i less
      refine List.pairwise_cons.mpr ⟨fun e he => ?_, List.pairwise_cons.mpr h⟩
      rcases List.mem_cons.mp he with rfl | he
      · exact less
      · exact @Std.TransCmp.lt_trans Symbol compare _ _ _ _ less (h.1 e he)
    · rename_i same
      obtain rfl := Std.LawfulEqCmp.eq_of_compare same
      exact List.pairwise_cons.mpr h
    · rename_i greater
      refine List.pairwise_cons.mpr ⟨fun e he => ?_, ih h.2⟩
      rcases mem_place he with rfl | he
      · exact Std.OrientedCmp.lt_of_gt greater
      · exact h.1 e he

def insert (m : SymbolMap β) (x : Symbol) (v : β) : SymbolMap β :=
  ⟨place x v m.entries, pairwise_place m.ascending⟩

def erase (m : SymbolMap β) (x : Symbol) : SymbolMap β :=
  ⟨m.entries.filter (·.1 ≠ x), m.ascending.filter _⟩

end SymbolMap
end FiniteAutomata
