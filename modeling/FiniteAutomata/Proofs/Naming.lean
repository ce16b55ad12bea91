import FiniteAutomata.Proofs.Elimination
import Mathlib.Data.Finset.Image

/-!
Automata by the names of their states. No two states have the same name, so the names tell which
state is meant, and they do so in whatever order the states were declared.
-/

namespace FiniteAutomata

namespace Kind

variable {k l : Kind}

theorem eq_accepting_iff : k = accepting ↔ k.isAccepting := by
  cases k <;> simp [isAccepting]

theorem ext (same : k = accepting ↔ l = accepting) : k = l := by
  cases k <;> cases l <;> simp_all

end Kind

/-- A transition between states that are given by their names. -/
structure Edge where
  source : String
  symbol : Symbol
  target : String
  deriving DecidableEq

namespace Edge

/-- By source, then by symbol, then by target. -/
instance : Ord Edge where
  compare := compareLex (compareOn source) (compareLex (compareOn symbol) (compareOn target))

instance : Std.TransOrd Edge := inferInstanceAs (Std.TransCmp (compareLex _ _))

instance : Std.LawfulEqOrd Edge where
  eq_of_compare {d e} same := by
    have same : compareLex (compareOn source) (compareLex (compareOn symbol) (compareOn target)) d e =
        .eq := same
    rw [compareLex_eq_eq, compareLex_eq_eq] at same
    obtain ⟨source, symbol, target⟩ := same
    cases d
    cases e
    congr
    · exact Std.LawfulEqOrd.eq_of_compare source
    · exact Std.LawfulEqOrd.eq_of_compare symbol
    · exact Std.LawfulEqOrd.eq_of_compare target

end Edge

/-- An automaton in which states are nothing but their names and kinds. -/
@[ext]
structure Named where
  states : Finset (String × Kind)
  initial : Finset String
  edges : Finset Edge

namespace Named

instance : DecidableEq Named := fun _ _ => decidable_of_iff' _ Named.ext_iff

/-- Whether there is a sequence of epsilon edges from one name to another. -/
abbrev EpsilonPath (m : Named) : String → String → Prop :=
  Relation.ReflTransGen fun n o => ⟨n, .epsilon, o⟩ ∈ m.edges

def shownState (m : Named) (n : String) : String :=
  (Kind.ofAccepting ((n, .accepting) ∈ m.states)).mark n

def shown (m : Named) (e : Edge) : String :=
  m.shownState e.source ++ ", " ++ e.symbol.label ++ " --> " ++ m.shownState e.target

end Named

namespace Transition

def byName (name : StateId → String) (t : Transition) : Edge :=
  ⟨name t.source, t.symbol, name t.target⟩

variable {name : StateId → String} {ts : List Transition}

theorem order_eq (name : StateId → String) (t u : Transition) :
    order name t u = compare (t.byName name) (u.byName name) := rfl

theorem isLE_order_trans (name : StateId → String) (t u v : Transition)
    (h₁ : (order name t u).isLE) (h₂ : (order name u v).isLE) : (order name t v).isLE := by
  rw [order_eq] at h₁ h₂ ⊢
  exact Std.TransCmp.isLE_trans h₁ h₂

theorem isLE_order_total (name : StateId → String) (t u : Transition) :
    (order name t u).isLE || (order name u t).isLE := by
  have swap : order name u t = (order name t u).swap := by
    rw [order_eq, order_eq]
    exact Std.OrientedCmp.eq_swap
  rw [swap]
  cases order name t u <;> rfl

theorem pairwise_sorted (name : StateId → String) (ts : List Transition) :
    (sorted name ts).Pairwise fun t u => (order name t u).isLE :=
  List.pairwise_mergeSort (isLE_order_trans name) (isLE_order_total name) ts

/-- Names that tell the ends of transitions apart tell the transitions apart. -/
theorem eq_of_byName {n : Nat} (apart : ∀ i < n, ∀ j < n, name i = name j → i = j)
    {t u : Transition} (ht : t.source < n ∧ t.target < n) (hu : u.source < n ∧ u.target < n)
    (same : t.byName name = u.byName name) : t = u := by
  obtain ⟨p, x, q⟩ := t
  obtain ⟨r, y, s⟩ := u
  obtain ⟨source, rfl, target⟩ := Edge.mk.inj same
  obtain rfl : p = r := apart p ht.1 r hu.1 source
  obtain rfl : q = s := apart q ht.2 s hu.2 target
  rfl

/-- Transitions that the names tell apart are strictly ordered. -/
theorem strictly_sorted (distinct : ts.Nodup)
    (apart : ∀ t ∈ ts, ∀ u ∈ ts, t.byName name = u.byName name → t = u) :
    (sorted name ts).Pairwise fun t u => order name t u = .lt := by
  have nodup : (sorted name ts).Nodup := List.nodup_mergeSort.mpr distinct
  refine ((pairwise_sorted name ts).and nodup).imp_of_mem fun {t u} ht hu ⟨le, differ⟩ => ?_
  cases compared : order name t u with
  | lt => rfl
  | eq =>
    have same : t.byName name = u.byName name := Std.LawfulEqOrd.eq_of_compare compared
    exact (differ (apart t (List.mem_mergeSort.mp ht) u (List.mem_mergeSort.mp hu) same)).elim
  | gt =>
    rw [compared] at le
    cases le

end Transition

namespace Nfa

def namesOf (a : Nfa) (states : StateSet) : Finset String := (states.toList.map a.nameOf).toFinset

def named (a : Nfa) : Named where
  states := (a.states.map fun q => (q.name, q.kind)).toFinset
  initial := a.namesOf a.initial
  edges := (a.transitions.map (Transition.byName a.nameOf)).toFinset

variable {a : Nfa} {states : StateSet} {p q : StateId} {m n : String} {x : Symbol}

/-! ### Looking names up -/

theorem nameOf_of_found {state : State} (found : a.states[q]? = some state) :
    a.nameOf q = state.name := by
  rw [nameOf, found]

theorem isAccepting_of_found {state : State} (found : a.states[q]? = some state) :
    a.isAccepting q = state.isAccepting := by
  rw [isAccepting, found]

theorem mem_namesOf : n ∈ a.namesOf states ↔ ∃ q ∈ states, a.nameOf q = n := by
  rw [namesOf, List.mem_toFinset, List.mem_map]
  rfl

theorem mem_initial : n ∈ a.named.initial ↔ ∃ q ∈ a.initial, a.nameOf q = n := mem_namesOf

theorem mem_edges : ⟨m, x, n⟩ ∈ a.named.edges ↔
    ∃ p q, ⟨p, x, q⟩ ∈ a.transitions ∧ a.nameOf p = m ∧ a.nameOf q = n := by
  unfold named
  rw [List.mem_toFinset, List.mem_map]
  constructor
  · rintro ⟨⟨p, y, q⟩, listed, same⟩
    obtain ⟨rfl, rfl, rfl⟩ := Edge.mk.inj same
    exact ⟨p, q, listed, rfl, rfl⟩
  · rintro ⟨p, q, listed, rfl, rfl⟩
    exact ⟨_, listed, rfl⟩

theorem mem_states {k : Kind} : (n, k) ∈ a.named.states ↔
    ∃ q < a.size, a.nameOf q = n ∧ (k = .accepting ↔ a.isAccepting q) := by
  unfold named
  rw [List.mem_toFinset, List.mem_map]
  constructor
  · rintro ⟨state, member, same⟩
    obtain ⟨rfl, rfl⟩ := Prod.mk.inj same
    obtain ⟨q, found⟩ := List.mem_iff_getElem?.mp member
    refine ⟨q, (List.getElem?_eq_some_iff.mp found).1, nameOf_of_found found, ?_⟩
    rw [isAccepting_of_found found]
    exact Kind.eq_accepting_iff
  · rintro ⟨q, exist, rfl, same⟩
    have found : a.states[q]? = some a.states[q] := List.getElem?_eq_getElem exist
    rw [isAccepting_of_found found, State.isAccepting, ← Kind.eq_accepting_iff] at same
    exact ⟨_, List.mem_of_getElem? found, Prod.ext (nameOf_of_found found).symm (Kind.ext same.symm)⟩

/-! ### Sorting by name -/

theorem mem_sorted_byName (a : Nfa) (e : Edge) :
    e ∈ a.sortedTransitions.map (Transition.byName a.nameOf) ↔ e ∈ a.named.edges := by
  unfold named sortedTransitions Transition.sorted
  rw [List.mem_toFinset, List.mem_map, List.mem_map]
  simp only [List.mem_mergeSort]

theorem pairwise_sorted_byName (a : Nfa) :
    (a.sortedTransitions.map (Transition.byName a.nameOf)).Pairwise fun d e =>
      (compare d e).isLE :=
  List.pairwise_map.mpr (Transition.pairwise_sorted a.nameOf a.transitions)

/-! ### Names of a well-formed automaton -/

namespace WellFormed

theorem nameOf_injective (h : WellFormed a) (hp : p < a.size) (hq : q < a.size)
    (same : a.nameOf p = a.nameOf q) : p = q := by
  have bound : p < (a.states.map State.name).length := by
    rw [List.length_map]
    exact hp
  have named {r : StateId} (hr : r < a.size) : (a.states.map State.name)[r]? = some (a.nameOf r) := by
    have found := List.getElem?_eq_getElem hr
    rw [List.getElem?_map, found, nameOf_of_found found]
    rfl
  apply (List.getElem?_inj bound h.names).mp
  rw [named hp, named hq, same]

theorem mem_namesOf (h : WellFormed a) (exist : ∀ q ∈ states, q < a.size) (hq : q < a.size) :
    a.nameOf q ∈ a.namesOf states ↔ q ∈ states := by
  rw [Nfa.mem_namesOf]
  constructor
  · rintro ⟨p, member, same⟩
    rwa [← h.nameOf_injective (exist p member) hq same]
  · exact fun member => ⟨q, member, rfl⟩

theorem namesOf_injective (h : WellFormed a) {states' : StateSet}
    (exist : ∀ q ∈ states, q < a.size) (exist' : ∀ q ∈ states', q < a.size)
    (same : a.namesOf states = a.namesOf states') : states = states' := by
  refine StateSet.ext fun q => ⟨fun member => ?_, fun member => ?_⟩
  · rw [← h.mem_namesOf exist' (exist q member), ← same]
    exact (h.mem_namesOf exist (exist q member)).mpr member
  · rw [← h.mem_namesOf exist (exist' q member), same]
    exact (h.mem_namesOf exist' (exist' q member)).mpr member

theorem accepting_mem_states (h : WellFormed a) (exist : q < a.size) :
    (a.nameOf q, .accepting) ∈ a.named.states ↔ a.isAccepting q := by
  rw [mem_states]
  constructor
  · rintro ⟨p, there, same, accepts⟩
    rw [← h.nameOf_injective there exist same]
    exact accepts.mp rfl
  · exact fun accepts => ⟨q, exist, rfl, iff_of_true rfl accepts⟩

theorem named_epsilonPath (h : WellFormed a) (exist : p < a.size) :
    a.named.EpsilonPath (a.nameOf p) n ↔ ∃ q, a.EpsilonPath p q ∧ a.nameOf q = n := by
  constructor
  · intro path
    induction path with
    | refl => exact ⟨p, .refl, rfl⟩
    | tail _ edge ih =>
      obtain ⟨q, path, rfl⟩ := ih
      obtain ⟨q', r, step, same, rfl⟩ := mem_edges.mp edge
      obtain rfl : q' = q := h.nameOf_injective (h.ends _ step).1 (h.epsilonPath_lt exist path) same
      exact ⟨r, path.tail step, rfl⟩
  · rintro ⟨q, path, rfl⟩
    induction path with
    | refl => exact .refl
    | tail _ step ih => exact ih.tail (mem_edges.mpr ⟨_, _, step, rfl, rfl⟩)

/-! ### Listings -/

theorem shownState_eq (h : WellFormed a) (exist : q < a.size) :
    a.shownState q = a.named.shownState (a.nameOf q) := by
  have found := List.getElem?_eq_getElem exist
  have kind : Kind.ofAccepting ((a.nameOf q, .accepting) ∈ a.named.states) = a.states[q].kind := by
    simp only [h.accepting_mem_states exist, isAccepting_of_found found, State.isAccepting]
    cases a.states[q].kind <;> rfl
  rw [Named.shownState, kind, nameOf_of_found found, shownState, found]
  rfl

theorem shown_eq (h : WellFormed a) {t : Transition} (listed : t ∈ a.transitions) :
    a.shown t = a.named.shown (t.byName a.nameOf) := by
  obtain ⟨source, target⟩ := h.ends t listed
  rw [shown, h.shownState_eq source, h.shownState_eq target]
  rfl

theorem byName_injective (h : WellFormed a) {t u : Transition} (ht : t ∈ a.transitions)
    (hu : u ∈ a.transitions) (same : t.byName a.nameOf = u.byName a.nameOf) : t = u :=
  Transition.eq_of_byName (fun _ hp _ hq => h.nameOf_injective hp hq) (h.ends t ht) (h.ends u hu) same

theorem nodup_sorted_byName (h : WellFormed a) :
    (a.sortedTransitions.map (Transition.byName a.nameOf)).Nodup := by
  have sorted : a.sortedTransitions.Nodup := List.nodup_mergeSort.mpr h.distinct
  refine sorted.map_on fun t ht u hu same => ?_
  exact h.byName_injective (List.mem_mergeSort.mp ht) (List.mem_mergeSort.mp hu) same

/-- The sorted list of transitions looks the same in all automata that are the same by name. -/
theorem shown_sortedTransitions (ha : WellFormed a) {b : Nfa} (hb : WellFormed b)
    (same : a.named = b.named) :
    a.sortedTransitions.map a.shown = b.sortedTransitions.map b.shown := by
  have shown {c : Nfa} (h : WellFormed c) : c.sortedTransitions.map c.shown =
      (c.sortedTransitions.map (Transition.byName c.nameOf)).map c.named.shown := by
    rw [List.map_map]
    exact List.map_congr_left fun t member => h.shown_eq (List.mem_mergeSort.mp member)
  have perm : (a.sortedTransitions.map (Transition.byName a.nameOf)).Perm
      (b.sortedTransitions.map (Transition.byName b.nameOf)) := by
    apply (List.perm_ext_iff_of_nodup ha.nodup_sorted_byName hb.nodup_sorted_byName).mpr
    intro e
    rw [mem_sorted_byName, mem_sorted_byName, same]
  have antisymm (d e : Edge) (less : (compare d e).isLE) (more : (compare e d).isLE) : d = e :=
    Std.LawfulEqOrd.eq_of_compare (Std.OrientedCmp.isLE_antisymm less more)
  rw [shown ha, shown hb, same]
  exact congrArg _ (perm.eq_of_pairwise (fun d e _ _ => antisymm d e) (pairwise_sorted_byName a)
    (pairwise_sorted_byName b))

end WellFormed
end Nfa
end FiniteAutomata
