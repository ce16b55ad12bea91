import FiniteAutomata.Dfa.Subset
import FiniteAutomata.Proofs.Configuration

/-!
The image of a set of states on a symbol. It is listed if and only if it is not empty, and in a
well-formed automaton it is what the simulation moves to.
-/

namespace FiniteAutomata

theorem StateSet.not_mem_empty (q : StateId) : q ∉ (∅ : StateSet) := List.not_mem_nil

namespace Nfa

variable {a : Nfa} {states m : StateSet} {x : Symbol}

/-! ### Images -/

def gather (found : SymbolMap StateSet) (t : Transition) : SymbolMap StateSet :=
  found.insert t.symbol (((found.get? t.symbol).getD ∅).insert t.target)

theorem mem_gather {found : SymbolMap StateSet} {t : Transition} {q : StateId} :
    q ∈ ((gather found t).get? x).getD ∅ ↔
      q ∈ (found.get? x).getD ∅ ∨ t.symbol = x ∧ t.target = q := by
  rw [gather, SymbolMap.get?_insert]
  by_cases same : x = t.symbol
  · rw [if_pos same, Option.getD_some, StateSet.mem_insert, same]
    constructor
    · intro either
      rcases either with rfl | old
      · exact .inr ⟨rfl, rfl⟩
      · exact .inl old
    · intro either
      rcases either with old | ⟨_, rfl⟩
      · exact .inr old
      · exact .inl rfl
  · rw [if_neg same]
    exact ⟨.inl, fun either => either.resolve_right fun new => same new.1.symm⟩

theorem mem_foldl_gather {ts : List Transition} {found : SymbolMap StateSet} {q : StateId} :
    q ∈ ((ts.foldl gather found).get? x).getD ∅ ↔
      q ∈ (found.get? x).getD ∅ ∨ ∃ t ∈ ts, t.symbol = x ∧ t.target = q := by
  induction ts generalizing found with
  | nil => simp
  | cons t ts ih =>
    rw [List.foldl_cons, ih, mem_gather]
    simp only [List.mem_cons, exists_eq_or_imp, or_assoc]

theorem foldl_gather_ne_empty {ts : List Transition} {found : SymbolMap StateSet}
    (before : ∀ x m, found.get? x = some m → m ≠ ∅) :
    ∀ x m, (ts.foldl gather found).get? x = some m → m ≠ ∅ := by
  induction ts generalizing found with
  | nil => exact before
  | cons t ts ih =>
    refine ih fun x m there empty => ?_
    rw [gather, SymbolMap.get?_insert] at there
    split at there
    · have entered : t.target ∈ m := Option.some.inj there ▸ StateSet.mem_insert.mpr (.inl rfl)
      rw [empty] at entered
      exact StateSet.not_mem_empty _ entered
    · exact before x m there empty

/-- A set has an image on a symbol if and only if it has targets on it. -/
theorem images_eq_some : (a.images states).get? x = some m ↔ m ≠ ∅ ∧
    ∀ q, q ∈ m ↔ ∃ p ∈ states, ∃ t ∈ a.edgesFrom p, t.symbol = x ∧ t.target = q := by
  have exact (q : StateId) : q ∈ ((a.images states).get? x).getD ∅ ↔
      ∃ p ∈ states, ∃ t ∈ a.edgesFrom p, t.symbol = x ∧ t.target = q := by
    show q ∈ (((states.toList.flatMap a.edgesFrom).foldl gather ∅).get? x).getD ∅ ↔ _
    rw [mem_foldl_gather]
    constructor
    · intro either
      rcases either with absurd | ⟨t, listed, here⟩
      · exact (StateSet.not_mem_empty q absurd).elim
      · obtain ⟨p, member, listed⟩ := List.mem_flatMap.mp listed
        exact ⟨p, member, t, listed, here⟩
    · intro found
      obtain ⟨p, member, t, listed, here⟩ := found
      exact .inr ⟨t, List.mem_flatMap.mpr ⟨p, member, listed⟩, here⟩
  constructor
  · intro found
    refine ⟨foldl_gather_ne_empty (fun _ _ absurd => by cases absurd) x m found, fun q => ?_⟩
    rw [← exact, found, Option.getD_some]
  · intro found
    obtain ⟨some, targets⟩ := found
    have same : ((a.images states).get? x).getD ∅ = m :=
      StateSet.ext fun q => (exact q).trans (targets q).symm
    cases found : (a.images states).get? x with
    | none =>
      rw [found] at same
      exact (some same.symm).elim
    | some image =>
      rw [found] at same
      exact congrArg _ same

/-- The initial states exist, and so does whatever an outbound index leads to. -/
structure Bounded (a : Nfa) : Prop where
  starts : ∀ q ∈ a.initial, q < a.size
  targets : ∀ {p t}, t ∈ a.edgesFrom p → t.target < a.size

theorem WellFormed.bounded (h : WellFormed a) : a.Bounded where
  starts := h.starts
  targets member := (h.ends _ (h.mem_edgesFrom.mp member).1).2

theorem Bounded.image (h : a.Bounded) (found : (a.images states).get? x = some m) :
    ∀ q ∈ m, q < a.size := by
  intro q member
  obtain ⟨p, _, t, listed, _, rfl⟩ := ((images_eq_some.mp found).2 q).mp member
  exact h.targets listed

theorem WellFormed.images_eq_some (h : WellFormed a) :
    (a.images states).get? x = some m ↔ m ≠ ∅ ∧ m = a.move states x := by
  rw [Nfa.images_eq_some]
  refine and_congr_right fun _ => ?_
  have targets (q : StateId) : q ∈ a.move states x ↔
      ∃ p ∈ states, ∃ t ∈ a.edgesFrom p, t.symbol = x ∧ t.target = q := by
    simp only [h.mem_move, h.mem_edgesFrom]
    constructor
    · intro found
      obtain ⟨p, member, listed⟩ := found
      exact ⟨p, member, _, ⟨listed, rfl⟩, rfl, rfl⟩
    · intro found
      obtain ⟨p, member, ⟨source, symbol, target⟩, ⟨listed, rfl⟩, rfl, rfl⟩ := found
      exact ⟨source, member, listed⟩
  constructor
  · intro same
    exact StateSet.ext fun q => (same q).trans (targets q).symm
  · rintro rfl
    exact targets

end Nfa
end FiniteAutomata
