/-!
States are numbered from zero. A set of states is its ascending list of numbers, so two sets
with the same members are equal.
-/

namespace FiniteAutomata

abbrev StateId := Nat

structure StateSet where
  toList : List StateId := []
  ascending : toList.Pairwise (· < ·) := by exact .nil
  deriving DecidableEq

namespace StateSet

instance : EmptyCollection StateSet := ⟨{}⟩

instance : Membership StateId StateSet := ⟨fun s q => q ∈ s.toList⟩

instance (q : StateId) (s : StateSet) : Decidable (q ∈ s) :=
  inferInstanceAs (Decidable (q ∈ s.toList))

theorem mem_def {q : StateId} {s : StateSet} : q ∈ s ↔ q ∈ s.toList := Iff.rfl

def place (q : StateId) : List StateId → List StateId
  | [] => [q]
  | p :: rest => if q < p then q :: p :: rest else if q = p then p :: rest else p :: place q rest

theorem mem_place {q p : StateId} {l : List StateId} : p ∈ place q l ↔ p = q ∨ p ∈ l := by
  induction l with
  | nil => simp [place]
  | cons r rest ih =>
    simp only [place]
    split
    · simp
    · split
      · rename_i h; subst h; simp
      · simp only [List.mem_cons, ih]; grind

theorem pairwise_place {q : StateId} {l : List StateId} (h : l.Pairwise (· < ·)) :
    (place q l).Pairwise (· < ·) := by
  induction l with
  | nil => simp [place]
  | cons r rest ih =>
    rw [List.pairwise_cons] at h
    simp only [place]
    split
    · rename_i lt
      refine List.pairwise_cons.mpr ⟨fun p hp => ?_, List.pairwise_cons.mpr h⟩
      rcases List.mem_cons.mp hp with rfl | hp
      · exact lt
      · exact Nat.lt_trans lt (h.1 p hp)
    · rename_i notLess
      split
      · exact List.pairwise_cons.mpr h
      · rename_i distinct
        refine List.pairwise_cons.mpr ⟨fun p hp => ?_, ih h.2⟩
        rcases mem_place.mp hp with rfl | hp
        · exact Nat.lt_of_le_of_ne (Nat.not_lt.mp notLess) (Ne.symm distinct)
        · exact h.1 p hp

def insert (s : StateSet) (q : StateId) : StateSet :=
  ⟨place q s.toList, pairwise_place s.ascending⟩

theorem mem_insert {s : StateSet} {q p : StateId} : p ∈ s.insert q ↔ p = q ∨ p ∈ s := mem_place

/-- Inserts the members of a list, and tells in order which of them are new. -/
def visit (s : StateSet) : List StateId → StateSet × List StateId
  | [] => (s, [])
  | q :: rest =>
    if q ∈ s then s.visit rest
    else
      let later := (s.insert q).visit rest
      (later.1, q :: later.2)

def ofList (l : List StateId) : StateSet := l.foldl insert ∅

def any (s : StateSet) (test : StateId → Bool) : Bool := s.toList.any test

theorem nodup (s : StateSet) : s.toList.Nodup := s.ascending.imp Nat.ne_of_lt

theorem eq_of_ascending {k l : List StateId} (hk : k.Pairwise (· < ·)) (hl : l.Pairwise (· < ·))
    (same : ∀ q, q ∈ k ↔ q ∈ l) : k = l := by
  induction k generalizing l with
  | nil =>
    cases l with
    | nil => rfl
    | cons q l => exact absurd ((same q).mpr (by simp)) (by simp)
  | cons p k ih =>
    cases l with
    | nil => exact absurd ((same p).mp (by simp)) (by simp)
    | cons q l =>
      rw [List.pairwise_cons] at hk hl
      have heq : p = q := by
        rcases List.mem_cons.mp ((same p).mp (by simp)) with h | h
        · exact h
        rcases List.mem_cons.mp ((same q).mpr (by simp)) with h' | h'
        · exact h'.symm
        exact absurd (hl.1 p h) (Nat.lt_asymm (hk.1 q h'))
      subst heq
      rw [ih hk.2 hl.2 fun r => ?_]
      constructor
      · intro h
        rcases List.mem_cons.mp ((same r).mp (by simp [h])) with rfl | h'
        · exact absurd (hk.1 r h) (Nat.lt_irrefl r)
        · exact h'
      · intro h
        rcases List.mem_cons.mp ((same r).mpr (by simp [h])) with rfl | h'
        · exact absurd (hl.1 r h) (Nat.lt_irrefl r)
        · exact h'

@[ext] theorem ext {s t : StateSet} (same : ∀ q, q ∈ s ↔ q ∈ t) : s = t := by
  cases s with | mk k hk => cases t with | mk l hl =>
  have : k = l := eq_of_ascending hk hl same
  subst this
  rfl

theorem toList_injective {s t : StateSet} (h : s.toList = t.toList) : s = t := by
  cases s; cases t; cases h; rfl

theorem mem_ofList {l : List StateId} {q : StateId} : q ∈ ofList l ↔ q ∈ l := by
  suffices ∀ s : StateSet, q ∈ l.foldl insert s ↔ q ∈ s ∨ q ∈ l by
    exact (this ∅).trans ⟨fun h => h.resolve_left List.not_mem_nil, Or.inr⟩
  induction l with
  | nil => simp
  | cons p l ih => intro s; simp only [List.foldl_cons, ih, mem_insert, List.mem_cons]; grind

theorem mem_visit {s : StateSet} {l : List StateId} {q : StateId} :
    q ∈ (s.visit l).1 ↔ q ∈ s ∨ q ∈ l := by
  induction l generalizing s with
  | nil => simp [visit]
  | cons p l ih =>
    simp only [visit]
    split <;> simp only [ih, mem_insert, List.mem_cons] <;> grind

theorem mem_visit_new {s : StateSet} {l : List StateId} {q : StateId} :
    q ∈ (s.visit l).2 ↔ q ∉ s ∧ q ∈ l := by
  induction l generalizing s with
  | nil => simp [visit]
  | cons p l ih =>
    simp only [visit]
    split <;> simp only [ih, mem_insert, List.mem_cons] <;> grind

theorem nodup_visit_new (s : StateSet) (l : List StateId) : (s.visit l).2.Nodup := by
  induction l generalizing s with
  | nil => exact .nil
  | cons q rest ih =>
    rw [visit]
    split
    · exact ih s
    · refine List.nodup_cons.mpr ⟨fun again => ?_, ih (s.insert q)⟩
      exact (mem_visit_new.mp again).1 (mem_insert.mpr (.inl rfl))

/-- The ascending lists of `n` numbers or fewer from `k` up to `k + n`. -/
def sublists (k : Nat) : Nat → List (List Nat)
  | 0 => [[]]
  | n + 1 => sublists (k + 1) n ++ (sublists (k + 1) n).map (k :: ·)

theorem mem_sublists {k n : Nat} {l : List Nat} (ascending : l.Pairwise (· < ·))
    (bounds : ∀ q ∈ l, k ≤ q ∧ q < k + n) : l ∈ sublists k n := by
  induction n generalizing k l with
  | zero =>
    cases l with
    | nil => simp [sublists]
    | cons q l => have := bounds q (by simp); omega
  | succ n ih =>
    cases l with
    | nil => exact List.mem_append_left _ (ih .nil (by simp))
    | cons q l =>
      rw [List.pairwise_cons] at ascending
      have first := bounds q (by simp)
      have later : ∀ p ∈ l, k + 1 ≤ p ∧ p < k + 1 + n := fun p hp => by
        have := bounds p (by simp [hp])
        have := ascending.1 p hp
        omega
      by_cases h : q = k
      · subst h
        exact List.mem_append_right _ (List.mem_map.mpr ⟨l, ih ascending.2 later, rfl⟩)
      · refine List.mem_append_left _ (ih (List.pairwise_cons.mpr ascending) fun p hp => ?_)
        rcases List.mem_cons.mp hp with rfl | hp
        · omega
        · exact later p hp

end StateSet
end FiniteAutomata
