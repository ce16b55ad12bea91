import FiniteAutomata.Proofs.Assembly
import FiniteAutomata.Proofs.Simulation
import Mathlib.Algebra.Group.Nat.Defs

/-!
Determinization builds exactly the accessible part of the subset automaton: the initial states and
every set but the empty one that a word leads to from them, each once, with every edge between them.
The index finds the state of each of these sets, and of no other one.
-/

namespace FiniteAutomata

theorem StateSet.length_sublists (k n : Nat) : (sublists k n).length = 2 ^ n := by
  induction n generalizing k with
  | zero => rfl
  | succ n ih =>
    rw [sublists, List.length_append, List.length_map, ih]
    omega

theorem StateSet.exists_mem {m : StateSet} (filled : m ≠ ∅) : ∃ q, q ∈ m := by
  cases listed : m.toList with
  | nil => exact (filled (StateSet.toList_injective listed)).elim
  | cons q rest =>
    refine ⟨q, ?_⟩
    rw [mem_def, listed]
    exact List.mem_cons_self

theorem ascending_mergeSort (names : List String) :
    (names.mergeSort (· ≤ ·)).Pairwise (· ≤ ·) := by
  have ordered : (names.mergeSort (· ≤ ·)).Pairwise fun x y => decide (x ≤ y) = true := by
    apply List.pairwise_mergeSort
    · intro x y z
      simpa using String.le_trans
    · intro x y
      simpa using String.le_total x y
  exact ordered.imp of_decide_eq_true

/-! ### Words and sets -/

namespace Nfa

variable {a : Nfa} {states m : StateSet}

/-- Where a word leads from a set of states when nothing is taken for free. -/
def moves (a : Nfa) (states : StateSet) (w : Word) : StateSet := w.foldl a.move states

/-- The initial states, or another set but the empty one that a word leads to from them. -/
def Accessible (a : Nfa) (m : StateSet) : Prop :=
  m = a.initial ∨ m ≠ ∅ ∧ ∃ w : Word, a.moves a.initial w = m

theorem moves_cons (a : Nfa) (states : StateSet) (x : Symbol) (w : Word) :
    a.moves states (x :: w) = a.moves (a.move states x) w := List.foldl_cons ..

namespace WellFormed

theorem moves_lt (h : WellFormed a) (exist : ∀ q ∈ states, q < a.size) (w : Word) :
    ∀ q ∈ a.moves states w, q < a.size := by
  induction w generalizing states with
  | nil => exact exist
  | cons x rest ih => exact ih (h.move_lt states x)

theorem accessible_lt (h : WellFormed a) (accessible : a.Accessible m) : ∀ q ∈ m, q < a.size := by
  rcases accessible with rfl | ⟨_, w, rfl⟩
  · exact h.starts
  · exact h.moves_lt h.starts w

/-- Without epsilon transitions the simulation does nothing else. -/
theorem readFrom_eq_moves (h : WellFormed a) (free : a.isEpsilonFree)
    (exist : ∀ q ∈ states, q < a.size) (w : Word) : a.readFrom states w = .ok (a.moves states w) := by
  induction w generalizing states with
  | nil => rfl
  | cons x rest ih =>
    have inside := h.move_lt states x
    rw [readFrom, h.close_of_epsilonFree free inside, moves_cons]
    exact ih inside

end WellFormed
end Nfa

namespace Dfa

variable {a : Nfa} {d : Dfa} {i j : StateId} {x : Symbol} {m : StateSet}

theorem follow_concat (d : Dfa) (i : StateId) (w : Word) (x : Symbol) :
    d.follow i (w ++ [x]) = (d.follow i w).bind fun j => d.successor j x := by
  induction w generalizing i with
  | nil =>
    have here : (d.follow i []).bind (fun j => d.successor j x) = d.successor i x := rfl
    rw [here, List.nil_append, follow]
    cases d.successor i x <;> rfl
  | cons y rest ih =>
    rw [List.cons_append, follow, follow]
    cases d.successor i y with
    | none => rfl
    | some next => exact ih next

theorem mem_memberSets : m ∈ d.memberSets ↔ ∃ i < d.size, d.members i = m := by
  rw [List.mem_iff_getElem?]
  constructor
  · intro found
    obtain ⟨i, there⟩ := found
    have inside : i < d.size := size_eq d ▸ (List.getElem?_eq_some_iff.mp there).1
    rw [getElem?_memberSets inside] at there
    exact ⟨i, inside, Option.some.inj there⟩
  · intro found
    obtain ⟨i, inside, rfl⟩ := found
    exact ⟨i, getElem?_memberSets inside⟩

theorem WellFormed.isSome_find? (h : WellFormed d) : (d.find? m).isSome ↔ m ∈ d.memberSets := by
  constructor
  · intro found
    obtain ⟨q, there⟩ := Option.isSome_iff_exists.mp found
    obtain ⟨inside, same⟩ := h.find?_eq_some there
    exact mem_memberSets.mpr ⟨q.id, inside, same⟩
  · intro member
    cases found : d.find? m with
    | none => exact (find?_eq_none found member).elim
    | some q => rfl

/-! ### What is reached -/

/-- Words lead along paths. -/
theorem WellFormed.exists_follow_iff (h : WellFormed d) :
    (∃ w, d.follow i w = some j) ↔ Relation.ReflTransGen d.Step i j := by
  constructor
  · rintro ⟨w, there⟩
    induction w generalizing i with
    | nil =>
      cases there
      exact .refl
    | cons x rest ih =>
      rw [follow] at there
      cases next : d.successor i x with
      | none =>
        rw [next] at there
        cases there
      | some k =>
        rw [next] at there
        exact (ih there).head ⟨x, h.successor_eq_some.mp next⟩
  · intro path
    induction path with
    | refl => exact ⟨[], rfl⟩
    | tail _ edge ih =>
      obtain ⟨w, there⟩ := ih
      obtain ⟨x, listed⟩ := edge
      refine ⟨w ++ [x], ?_⟩
      rw [follow_concat, there]
      exact h.successor_eq_some.mpr listed

namespace Determinizes

theorem exists_follow (e : Determinizes a d) (exist : i < d.size) : ∃ w, d.follow 0 w = some i :=
  e.wellFormed.exists_follow_iff.mpr (e.accessible i exist)

theorem follow_moves (e : Determinizes a d) (h : a.WellFormed) (free : a.isEpsilonFree) (w : Word) :
    ((d.follow 0 w).isSome ↔ w = [] ∨ a.moves a.initial w ≠ ∅) ∧
      ∀ j, d.follow 0 w = some j → j < d.size ∧ d.members j = a.moves a.initial w := by
  obtain ⟨exist, initial⟩ := e.first
  obtain ⟨last, read, reached⟩ := e.follow h free exist (w := w)
  rw [initial, h.readFrom_eq_moves free h.starts] at read
  obtain rfl := Except.ok.inj read
  exact reached

theorem mem_memberSets_iff (e : Determinizes a d) (h : a.WellFormed) (free : a.isEpsilonFree) :
    m ∈ d.memberSets ↔ a.Accessible m := by
  rw [mem_memberSets]
  constructor
  · intro found
    obtain ⟨i, exist, rfl⟩ := found
    obtain ⟨w, there⟩ := e.exists_follow exist
    obtain ⟨reaches, members⟩ := e.follow_moves h free w
    have same := (members i there).2
    rcases reaches.mp (by rw [there]; rfl) with rfl | filled
    · exact .inl same
    · exact .inr ⟨same ▸ filled, w, same.symm⟩
  · intro accessible
    rcases accessible with rfl | ⟨filled, w, rfl⟩
    · exact ⟨0, e.first⟩
    · obtain ⟨reaches, members⟩ := e.follow_moves h free w
      obtain ⟨i, there⟩ := Option.isSome_iff_exists.mp (reaches.mpr (.inr filled))
      exact ⟨i, members i there⟩

theorem mem_transitions_iff (e : Determinizes a d) (h : a.WellFormed) :
    ⟨i, x, j⟩ ∈ d.transitions ↔ i < d.size ∧ j < d.size ∧ a.move (d.members i) x ≠ ∅ ∧
      a.move (d.members i) x = d.members j := by
  constructor
  · intro listed
    obtain ⟨source, target⟩ := e.wellFormed.ends _ listed
    obtain ⟨filled, same⟩ := h.images_eq_some.mp (e.sound listed)
    exact ⟨source, target, same ▸ filled, same.symm⟩
  · intro found
    obtain ⟨source, target, filled, same⟩ := found
    have image := h.images_eq_some.mpr ⟨filled, rfl⟩
    obtain ⟨k, listed, members⟩ := (e.complete source image).resolve_left id
    have exist := (e.wellFormed.ends _ listed).2
    rw [e.wellFormed.members_injective target exist (same.symm.trans members.symm)]
    exact listed

theorem successor_eq_none (e : Determinizes a d) (h : a.WellFormed) (exist : i < d.size) :
    d.successor i x = none ↔ a.move (d.members i) x = ∅ := by
  constructor
  · intro stuck
    apply Decidable.byContradiction
    intro filled
    have image := h.images_eq_some.mpr ⟨filled, rfl⟩
    obtain ⟨j, listed, _⟩ := (e.complete exist image).resolve_left id
    rw [e.wellFormed.successor_eq_some.mpr listed] at stuck
    cases stuck
  · intro dry
    refine Option.eq_none_iff_forall_not_mem.mpr fun j there => ?_
    have listed := e.wellFormed.successor_eq_some.mp there
    exact ((e.mem_transitions_iff h).mp listed).2.2.1 dry

/-- The successor is looked up by its members. -/
theorem successor_eq_find? (e : Determinizes a d) (h : a.WellFormed) (exist : i < d.size)
    (filled : a.move (d.members i) x ≠ ∅) :
    ∃ q, d.find? (a.move (d.members i) x) = some q ∧ d.successor i x = some q.id := by
  have image := h.images_eq_some.mpr ⟨filled, rfl⟩
  obtain ⟨j, listed, members⟩ := (e.complete exist image).resolve_left id
  have target := (e.wellFormed.ends _ listed).2
  have known : (d.find? (a.move (d.members i) x)).isSome :=
    e.wellFormed.isSome_find?.mpr (mem_memberSets.mpr ⟨j, target, members⟩)
  obtain ⟨q, there⟩ := Option.isSome_iff_exists.mp known
  obtain ⟨inside, same⟩ := e.wellFormed.find?_eq_some there
  have number : j = q.id := e.wellFormed.members_injective target inside (members.trans same.symm)
  exact ⟨q, there, e.wellFormed.successor_eq_some.mpr (number ▸ listed)⟩

theorem size_le (e : Determinizes a d) (h : a.WellFormed) (free : a.isEpsilonFree) :
    d.size ≤ 2 ^ a.size := by
  have distinct : (d.memberSets.map (·.toList)).Nodup := by
    apply List.pairwise_map.mpr
    exact e.wellFormed.apart.imp fun differ same => differ (StateSet.toList_injective same)
  have subsets : d.memberSets.map (·.toList) ⊆ StateSet.sublists 0 a.size := by
    intro l member
    obtain ⟨m, met, rfl⟩ := List.mem_map.mp member
    have inside := h.accessible_lt ((e.mem_memberSets_iff h free).mp met)
    exact StateSet.mem_sublists m.ascending fun q hq => ⟨Nat.zero_le q, by simpa using inside q hq⟩
  have bound := distinct.length_le_of_subset subsets
  rwa [List.length_map, ← size_eq, StateSet.length_sublists] at bound

theorem symbol_mem_alphabet (e : Determinizes a d) (h : a.WellFormed) (free : a.isEpsilonFree)
    {t : Transition} (listed : t ∈ d.transitions) : t.symbol ∈ d.alphabet.letters := by
  obtain ⟨i, x, j⟩ := t
  obtain ⟨_, _, filled, _⟩ := (e.mem_transitions_iff h).mp listed
  obtain ⟨q, member⟩ := StateSet.exists_mem filled
  obtain ⟨p, _, there⟩ := h.mem_move.mp member
  rw [e.alphabet]
  refine h.known ⟨p, x, q⟩ there ?_
  rintro rfl
  have letter := List.all_eq_true.mp free _ there
  cases letter

end Determinizes

/-! ### States by their members -/

theorem State.nameOfMembers_eq (names : List String) :
    ∃ sorted : List String, sorted.Perm names ∧ sorted.Pairwise (· ≤ ·) ∧
      nameOfMembers names = "\x7b" ++ ",".intercalate sorted ++ "\x7d" :=
  ⟨names.mergeSort (· ≤ ·), List.mergeSort_perm .., ascending_mergeSort names, rfl⟩

theorem Standing.name {q : State} (standing : Standing a d) (found : d.states[i]? = some q) :
    q.name = State.nameOfMembers (q.members.toList.map a.nameOf) :=
  congrArg State.name (standing.bare_of_found found)

namespace Indexed

variable {s : Indexed}

/-- The accessible part of the subset automaton, where states are found by the index. -/
structure AccessiblePart (a : Nfa) (s : Indexed) : Prop where
  apart : s.dfa.memberSets.Nodup
  first : s.dfa.memberSets[0]? = some a.initial
  sets : ∀ m, m ∈ s.dfa.memberSets ↔ a.Accessible m
  size : s.dfa.size ≤ 2 ^ a.size
  distinct : s.dfa.transitions.Nodup
  edges : ∀ i x j, ⟨i, x, j⟩ ∈ s.dfa.transitions ↔ i < s.dfa.size ∧ j < s.dfa.size ∧
    a.move (s.dfa.members i) x ≠ ∅ ∧ a.move (s.dfa.members i) x = s.dfa.members j
  stuck : ∀ i < s.dfa.size, ∀ x, s.dfa.successor i x = none ↔ a.move (s.dfa.members i) x = ∅
  next : ∀ i < s.dfa.size, ∀ x, a.move (s.dfa.members i) x ≠ ∅ →
    ∃ q, s.find (a.move (s.dfa.members i) x) = .ok (some q) ∧ s.dfa.successor i x = some q.id
  find : ∀ m, ∃ found, s.find m = .ok found ∧ (found.isSome ↔ a.Accessible m) ∧
    ∀ q, found = some q → q ∈ s.dfa.states ∧ q.members = m
  accepting : ∀ q ∈ s.dfa.states, q.isAccepting ↔ ∃ p ∈ q.members, a.isAccepting p
  names : ∀ q ∈ s.dfa.states, ∃ sorted : List String,
    sorted.Perm (q.members.toList.map a.nameOf) ∧ sorted.Pairwise (· ≤ ·) ∧
      q.name = "\x7b" ++ ",".intercalate sorted ++ "\x7d"
  labels : ∀ t ∈ s.dfa.transitions, t.symbol ∈ s.dfa.alphabet.letters
  alphabet : s.dfa.alphabet = a.alphabet

theorem accessiblePart (e : Determinizes a s.dfa) (agrees : Agrees s) (h : a.WellFormed)
    (free : a.isEpsilonFree) : AccessiblePart a s where
  apart := e.wellFormed.apart
  first := by rw [getElem?_memberSets e.first.1, e.first.2]
  sets _ := e.mem_memberSets_iff h free
  size := e.size_le h free
  distinct := e.wellFormed.distinct
  edges _ _ _ := e.mem_transitions_iff h
  stuck _ exist _ := e.successor_eq_none h exist
  next i exist x filled := by
    obtain ⟨q, found, next⟩ := e.successor_eq_find? h exist filled
    have looked := Faithful.find_eq ⟨e.wellFormed, agrees⟩ (a.move (s.dfa.members i) x)
    rw [found] at looked
    exact ⟨q, looked, next⟩
  find m := by
    refine ⟨s.dfa.find? m, Faithful.find_eq ⟨e.wellFormed, agrees⟩ m, ?_, fun q found => ?_⟩
    · exact e.wellFormed.isSome_find?.trans (e.mem_memberSets_iff h free)
    · exact e.wellFormed.find?_iff.mp found
  accepting q member := by
    obtain ⟨i, found⟩ := List.mem_iff_getElem?.mp member
    rw [e.standing.isAccepting found]
    exact List.any_eq_true
  names q member := by
    obtain ⟨i, found⟩ := List.mem_iff_getElem?.mp member
    rw [e.standing.name found]
    exact State.nameOfMembers_eq _
  labels _ listed := e.symbol_mem_alphabet h free listed
  alphabet := e.alphabet

theorem determinize_succeeds (bounded : a.Bounded) (free : a.isEpsilonFree) :
    ∃ s log, determinize a = ⟨s, log, .ok ()⟩ ∧ Determinizes a s.dfa ∧ Agrees s := by
  obtain ⟨d, log, ran, e⟩ := Dfa.determinize_succeeds bounded free
  obtain ⟨rfl, rfl, result⟩ := Outcome.mk.inj ran
  have built : determinize a = ⟨(determinize a).final, (determinize a).log, .ok ()⟩ := by
    rw [← result]
  exact ⟨_, _, built, e, agrees_of_determinize built⟩

end Indexed
end Dfa

namespace Nfa

variable {a : Nfa}

/-- Determinization succeeds, and builds the accessible part and no more. -/
theorem Reachable.determinize_accessiblePart (h : Reachable a) (free : a.isEpsilonFree) :
    ∃ s log, Dfa.Indexed.determinize a = ⟨s, log, .ok ()⟩ ∧ a.determinize = ⟨s.dfa, log, .ok ()⟩ ∧
      Dfa.Indexed.AccessiblePart a s := by
  obtain ⟨s, log, ran, e, agrees⟩ := Dfa.Indexed.determinize_succeeds h.wellFormed.bounded free
  exact ⟨s, log, ran, Dfa.Indexed.determinize_dfa ran,
    Dfa.Indexed.accessiblePart e agrees h.wellFormed free⟩

theorem determinize_accessiblePart_fork :
    ∃ s log, Dfa.Indexed.determinize (run {} fork) = ⟨s, log, .ok ()⟩ ∧
      (run {} fork).determinize = ⟨s.dfa, log, .ok ()⟩ ∧
      Dfa.Indexed.AccessiblePart (run {} fork) s :=
  Reachable.determinize_accessiblePart ⟨fork, by decide, rfl⟩ (by decide)

end Nfa
end FiniteAutomata
