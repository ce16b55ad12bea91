import FiniteAutomata.Proofs.DistinctNames
import Mathlib.Data.List.ProdSigma

/-!
Complete automata: each of some letters leads from every state to every state. So it leads from any
states to all of them, and determinization meets no other set than these and the initial states.
-/

namespace FiniteAutomata

/-! ### Counting transitions -/

namespace Transition

variable {n : Nat} {xs : List Symbol} {t : Transition}

/-- The transitions on some symbols between any two of the first states. -/
def across (n : Nat) (xs : List Symbol) : List Transition :=
  ((List.range n ×ˢ xs) ×ˢ List.range n).map fun e => ⟨e.1.1, e.1.2, e.2⟩

theorem mem_across : t ∈ across n xs ↔ t.source < n ∧ t.symbol ∈ xs ∧ t.target < n := by
  obtain ⟨p, x, q⟩ := t
  simp only [across, List.mem_map, Prod.exists, List.mem_product, List.mem_range, mk.injEq]
  grind

theorem nodup_across (distinct : xs.Nodup) : (across n xs).Nodup := by
  refine List.Nodup.map (fun d e same => ?_)
    ((List.nodup_range.product distinct).product List.nodup_range)
  obtain ⟨⟨p, x⟩, q⟩ := d
  obtain ⟨⟨p', x'⟩, q'⟩ := e
  obtain ⟨rfl, rfl, rfl⟩ := mk.inj same
  rfl

theorem length_across (n : Nat) (xs : List Symbol) : (across n xs).length = n * n * xs.length := by
  simp only [across, List.length_map, List.length_product, List.length_range]
  exact Nat.mul_right_comm n xs.length n

/-- The epsilon transitions between any two of the first states that are not the same. -/
def between (n : Nat) : List Transition :=
  (List.range n).flatMap fun p => ((List.range n).erase p).map fun q => ⟨p, .epsilon, q⟩

theorem mem_between : t ∈ between n ↔
    t.source < n ∧ t.target < n ∧ t.symbol = .epsilon ∧ t.source ≠ t.target := by
  obtain ⟨p, x, q⟩ := t
  simp only [between, List.mem_flatMap, List.mem_map, List.mem_range, mk.injEq,
    List.nodup_range.mem_erase_iff]
  grind

theorem nodup_between (n : Nat) : (between n).Nodup := by
  refine List.nodup_flatMap.mpr ⟨fun p _ => ?_, ?_⟩
  · refine (List.nodup_range.erase p).map fun q r same => ?_
    exact (mk.inj same).2.2
  · refine List.nodup_range.imp fun {p q} differ t ht hu => ?_
    obtain ⟨_, _, rfl⟩ := List.mem_map.mp ht
    obtain ⟨_, _, same⟩ := List.mem_map.mp hu
    exact differ (mk.inj same).1.symm

theorem length_between (n : Nat) : (between n).length = n * (n - 1) := by
  have each : ∀ p ∈ List.range n, ((List.range n).erase p).length = n - 1 := fun p member => by
    rw [List.length_erase_of_mem member, List.length_range]
  simp only [between, List.length_flatMap, List.length_map]
  rw [List.map_congr_left each, List.map_const', List.sum_replicate_nat, List.length_range]

end Transition

/-! ### Reading a complete automaton -/

namespace Nfa

variable {a : Nfa} {xs : List Symbol} {states m : StateSet} {x : Symbol} {w : Word}

/-- The transitions are those on some symbols between any two states. -/
def CompleteOn (a : Nfa) (xs : List Symbol) : Prop :=
  ∀ t, t ∈ a.transitions ↔ t.source < a.size ∧ t.symbol ∈ xs ∧ t.target < a.size

def everything (a : Nfa) : StateSet := .ofList (List.range a.size)

theorem mem_everything {q : StateId} : q ∈ a.everything ↔ q < a.size := by
  rw [everything, StateSet.mem_ofList, List.mem_range]

theorem everything_ne_empty (filled : states ≠ ∅) (exist : ∀ q ∈ states, q < a.size) :
    a.everything ≠ ∅ := by
  obtain ⟨q, member⟩ := StateSet.exists_mem filled
  intro none
  have there : q ∈ a.everything := mem_everything.mpr (exist q member)
  rw [none] at there
  exact StateSet.not_mem_empty q there

namespace CompleteOn

theorem length_eq (c : a.CompleteOn xs) (h : WellFormed a) (distinct : xs.Nodup) :
    a.transitions.length = a.size * a.size * xs.length := by
  rw [← Transition.length_across]
  refine ((List.perm_ext_iff_of_nodup h.distinct (Transition.nodup_across distinct)).mpr
    fun t => ?_).length_eq
  rw [c t, Transition.mem_across]

/-- One letter leads from any states to all states. -/
theorem move_eq (c : a.CompleteOn xs) (h : WellFormed a) (exist : ∀ q ∈ states, q < a.size) :
    a.move states x = if x ∈ xs ∧ states ≠ ∅ then a.everything else ∅ := by
  refine StateSet.ext fun q => ?_
  rw [h.mem_move]
  split
  · rename_i leads
    rw [mem_everything]
    constructor
    · rintro ⟨p, _, listed⟩
      exact (h.ends _ listed).2
    · intro there
      obtain ⟨p, member⟩ := StateSet.exists_mem leads.2
      exact ⟨p, member, (c _).mpr ⟨exist p member, leads.1, there⟩⟩
  · rename_i stuck
    refine iff_of_false ?_ (StateSet.not_mem_empty q)
    rintro ⟨p, member, listed⟩
    refine stuck ⟨((c _).mp listed).2.1, ?_⟩
    rintro rfl
    exact StateSet.not_mem_empty p member

/-- A word that leads anywhere leads to all states, unless it is empty. -/
theorem moves_cons_eq (c : a.CompleteOn xs) (h : WellFormed a) (exist : ∀ q ∈ states, q < a.size)
    (filled : a.moves states (x :: w) ≠ ∅) :
    a.moves states (x :: w) = a.everything ∧ x ∈ xs ∧ states ≠ ∅ := by
  -- After the first letter all states or none are left, and the next letter finds one or the other.
  induction w generalizing states x with
  | nil =>
    have moved : a.moves states [x] = if x ∈ xs ∧ states ≠ ∅ then a.everything else ∅ :=
      c.move_eq h exist
    rw [moved] at filled ⊢
    split at filled
    · rename_i leads
      rw [if_pos leads]
      exact ⟨rfl, leads⟩
    · exact (filled rfl).elim
  | cons y rest ih =>
    rw [moves_cons, c.move_eq h exist] at filled ⊢
    split at filled
    · rename_i leads
      rw [if_pos leads]
      exact ⟨(ih (fun q => mem_everything.mp) filled).1, leads⟩
    · rw [moves_empty] at filled
      exact (filled rfl).elim

theorem accessible_iff (c : a.CompleteOn xs) (h : WellFormed a) :
    a.Accessible m ↔ m = a.initial ∨ (xs ≠ [] ∧ a.initial ≠ ∅) ∧ m = a.everything := by
  constructor
  · rintro (start | ⟨filled, w, rfl⟩)
    · exact .inl start
    · cases w with
      | nil => exact .inl rfl
      | cons x rest =>
        obtain ⟨same, letter, started⟩ := c.moves_cons_eq h h.starts filled
        exact .inr ⟨⟨List.ne_nil_of_mem letter, started⟩, same⟩
  · rintro (start | ⟨⟨lettered, started⟩, rfl⟩)
    · exact .inl start
    · obtain ⟨x, letter⟩ := List.exists_mem_of_ne_nil xs lettered
      refine .inr ⟨everything_ne_empty started h.starts, [x], ?_⟩
      show a.move a.initial x = a.everything
      rw [c.move_eq h h.starts, if_pos ⟨letter, started⟩]

/-- Determinization meets the initial states, and all states if a letter leads there. -/
theorem size_determinized {d : Dfa} (c : a.CompleteOn xs) (h : WellFormed a) (free : a.isEpsilonFree)
    (e : Dfa.Determinizes a d) :
    d.size = if xs ≠ [] ∧ a.initial ≠ ∅ ∧ a.initial ≠ a.everything then 2 else 1 := by
  have apart := e.wellFormed.apart
  rw [Dfa.size_eq]
  split
  · rename_i differ
    obtain ⟨lettered, started, other⟩ := differ
    have pair : [a.initial, a.everything].Nodup := by simpa using other
    refine ((List.perm_ext_iff_of_nodup apart pair).mpr fun m => ?_).length_eq
    rw [e.mem_memberSets_iff h free, c.accessible_iff h]
    simp [lettered, started]
  · rename_i same
    -- The second set is not met, or it is the first one again.
    refine ((List.perm_ext_iff_of_nodup apart (List.nodup_singleton a.initial)).mpr
      fun m => ?_).length_eq
    rw [e.mem_memberSets_iff h free, c.accessible_iff h, List.mem_singleton]
    refine or_iff_left_of_imp ?_
    rintro ⟨⟨lettered, started⟩, rfl⟩
    by_contra differ
    exact same ⟨lettered, started, Ne.symm differ⟩

end CompleteOn
end Nfa
end FiniteAutomata
