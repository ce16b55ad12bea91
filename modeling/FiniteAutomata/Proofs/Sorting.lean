import FiniteAutomata.Proofs.Connected
import FiniteAutomata.Proofs.Naming
import FiniteAutomata.Proofs.Reachable

/-!
Sorting transitions by name. In a nondeterministic automaton names tell states apart, so the sorted
list ascends strictly and depends on the set of transitions only. States of a deterministic automaton
can share a name; there transitions that look alike stay in the order in which they were added.
-/

namespace FiniteAutomata

/-! ### The order -/

/-- The empty word comes before every letter, letters go by their labels. -/
def Symbol.Precedes : Symbol → Symbol → Prop
  | epsilon, letter _ => True
  | letter x, letter y => x < y
  | _, epsilon => False

theorem Symbol.compare_eq_lt {x y : Symbol} : compare x y = .lt ↔ x.Precedes y := by
  cases x with
  | epsilon =>
    cases y with
    | epsilon => exact iff_of_false (by rw [Std.ReflOrd.compare_self]; simp) id
    | letter y => exact iff_of_true rfl trivial
  | letter x =>
    cases y with
    | epsilon => exact iff_of_false (fun less => by cases less) id
    | letter y => exact compare_lt_iff_lt (a := x) (b := y)

namespace Edge

variable {d e : Edge}

/-- By source, then by symbol, then by target. -/
def Precedes (d e : Edge) : Prop :=
  d.source < e.source ∨ d.source = e.source ∧
    (d.symbol.Precedes e.symbol ∨ d.symbol = e.symbol ∧ d.target < e.target)

theorem compare_eq (d e : Edge) : compare d e = (compare d.source e.source).then
    ((compare d.symbol e.symbol).then (compare d.target e.target)) := rfl

theorem compare_eq_lt : compare d e = .lt ↔ d.Precedes e := by
  rw [compare_eq, Ordering.then_eq_lt, Ordering.then_eq_lt, compare_lt_iff_lt, compare_lt_iff_lt,
    Symbol.compare_eq_lt, Std.LawfulEqOrd.compare_eq_iff_eq, Std.LawfulEqOrd.compare_eq_iff_eq]
  rfl

theorem isLE_compare : (compare d e).isLE ↔ d.Precedes e ∨ d = e := by
  rw [Ordering.isLE_iff_eq_lt_or_eq_eq, compare_eq_lt, Std.LawfulEqOrd.compare_eq_iff_eq]

theorem Precedes.asymm (h : d.Precedes e) : ¬ e.Precedes d := by
  intro back
  rw [← compare_eq_lt] at h back
  rw [Std.OrientedOrd.eq_swap, h] at back
  cases back

theorem Precedes.irrefl (h : e.Precedes e) : False := h.asymm h

end Edge

/-! ### The sorted list -/

namespace Transition

variable {name : StateId → String} {t u : Transition} {ts us : List Transition}

theorem order_eq_lt : order name t u = .lt ↔ (t.byName name).Precedes (u.byName name) := by
  rw [order_eq, Edge.compare_eq_lt]

theorem isLE_order : (order name t u).isLE ↔
    (t.byName name).Precedes (u.byName name) ∨ t.byName name = u.byName name := by
  rw [order_eq, Edge.isLE_compare]

theorem sorted_perm (name : StateId → String) (ts : List Transition) : (sorted name ts).Perm ts :=
  List.mergeSort_perm ts _

theorem sorted_ascends (name : StateId → String) (ts : List Transition) :
    (sorted name ts).Pairwise fun t u =>
      (t.byName name).Precedes (u.byName name) ∨ t.byName name = u.byName name :=
  (pairwise_sorted name ts).imp fun least => isLE_order.mp least

/-- Strictly ascending lists of the same transitions are the same list. -/
theorem eq_of_strictly_ascending
    (ht : ts.Pairwise fun t u => (t.byName name).Precedes (u.byName name))
    (hu : us.Pairwise fun t u => (t.byName name).Precedes (u.byName name))
    (same : ∀ t, t ∈ ts ↔ t ∈ us) : ts = us := by
  have distinct {l : List Transition}
      (h : l.Pairwise fun t u => (t.byName name).Precedes (u.byName name)) : l.Nodup := by
    refine h.imp fun less same => ?_
    rw [same] at less
    exact less.irrefl
  have perm : ts.Perm us := (List.perm_ext_iff_of_nodup (distinct ht) (distinct hu)).mpr same
  exact perm.eq_of_pairwise (fun _ _ _ _ less greater => (less.asymm greater).elim) ht hu

/-- Transitions with the same names at their ends and the same symbol stay as they were. -/
theorem filter_sorted (name : StateId → String) (ts : List Transition) (e : Edge) :
    (sorted name ts).filter (·.byName name = e) = ts.filter (·.byName name = e) := by
  have alike : (ts.filter (·.byName name = e)).Pairwise fun t u => (order name t u).isLE := by
    refine List.pairwise_iff_forall_sublist.mpr fun {t u} pair => ?_
    have here : ∀ v ∈ [t, u], v.byName name = e := fun v member =>
      of_decide_eq_true (List.mem_filter.mp (pair.subset member)).2
    rw [order_eq, here t (by simp), here u (by simp), Std.ReflOrd.compare_self]
    rfl
  have kept : (ts.filter (·.byName name = e)).Sublist (sorted name ts) :=
    List.sublist_mergeSort (isLE_order_trans name) (isLE_order_total name) alike
      List.filter_sublist
  have within := kept.filter (·.byName name = e)
  rw [List.filter_filter] at within
  simp only [Bool.and_self] at within
  refine (within.eq_of_length ?_).symm
  exact ((sorted_perm name ts).filter _).length_eq.symm

end Transition

/-! ### Nondeterministic automata -/

namespace Nfa

variable {a : Nfa}

/-- The sorted list of transitions is the only one that ascends strictly by name. Every name that is
compared is the name of a state. -/
structure CanonicallySorted (a : Nfa) : Prop where
  named : ∀ t ∈ a.transitions, t.source < a.size ∧ t.target < a.size
  perm : a.sortedTransitions.Perm a.transitions
  strict : a.sortedTransitions.Pairwise fun t u =>
    (t.byName a.nameOf).Precedes (u.byName a.nameOf)
  only : ∀ ts : List Transition, (∀ t, t ∈ ts ↔ t ∈ a.transitions) →
    (ts.Pairwise fun t u => (t.byName a.nameOf).Precedes (u.byName a.nameOf)) →
    ts = a.sortedTransitions

theorem WellFormed.sortedTransitions_strict (h : WellFormed a) :
    a.sortedTransitions.Pairwise fun t u => (t.byName a.nameOf).Precedes (u.byName a.nameOf) :=
  (Transition.strictly_sorted h.distinct fun _ ht _ hu => h.byName_injective ht hu).imp
    fun less => Transition.order_eq_lt.mp less

theorem WellFormed.canonicallySorted (h : WellFormed a) : CanonicallySorted a where
  named := h.ends
  perm := Transition.sorted_perm a.nameOf a.transitions
  strict := h.sortedTransitions_strict
  only _ same ascends := Transition.eq_of_strictly_ascending ascends h.sortedTransitions_strict
    fun t => (same t).trans List.mem_mergeSort.symm

end Nfa

/-! ### Deterministic automata -/

namespace Dfa

variable {d : Dfa}

/-- The sorted list of transitions ascends by name, and is in the order of the list of transitions
where names and symbols are the same. Every name that is compared is the name of a state. -/
structure StablySorted (d : Dfa) : Prop where
  named : ∀ t ∈ d.transitions, t.source < d.size ∧ t.target < d.size
  perm : d.sortedTransitions.Perm d.transitions
  ascends : d.sortedTransitions.Pairwise fun t u =>
    (t.byName d.nameOf).Precedes (u.byName d.nameOf) ∨ t.byName d.nameOf = u.byName d.nameOf
  stable : ∀ e : Edge, d.sortedTransitions.filter (·.byName d.nameOf = e) =
    d.transitions.filter (·.byName d.nameOf = e)

theorem WellFormed.stablySorted (h : WellFormed d) : StablySorted d where
  named := h.ends
  perm := Transition.sorted_perm d.nameOf d.transitions
  ascends := Transition.sorted_ascends d.nameOf d.transitions
  stable := Transition.filter_sorted d.nameOf d.transitions

end Dfa

/-- Sorting is canonical where names are unique, and stable where they are not. -/
theorem sorted_by_name {a : Nfa} {d : Dfa} (h : a.Reachable) (g : d.Obtained) :
    a.CanonicallySorted ∧ d.StablySorted :=
  ⟨h.wellFormed.canonicallySorted, g.wellFormed.stablySorted⟩

/-- Two states of the same name, with transitions that look alike, the later one added first. -/
def Dfa.Indexed.namesakes : List Dfa.Operation :=
  let a := Nfa.run {} [.addState "p" .ordinary, .addState "q" .accepting, .addState "p,q" .ordinary]
  [.intern (.ofList [0, 1]) a, .intern (.ofList [2]) a, .addTransition ⟨1, .letter "x", 0⟩,
    .addTransition ⟨0, .letter "x", 1⟩, .addTransition ⟨1, .epsilon, 1⟩]

theorem sorted_by_name_namesakes : (Nfa.run {} Nfa.detour).CanonicallySorted ∧
    (Dfa.Indexed.run (Dfa.Indexed.emptyFor {}) Dfa.Indexed.namesakes).dfa.StablySorted := by
  have reachable : (Nfa.run {} Nfa.detour).Reachable := ⟨Nfa.detour, by decide, rfl⟩
  have assembled : Dfa.Indexed.Assembled {}
      (Dfa.Indexed.run (Dfa.Indexed.emptyFor {}) Dfa.Indexed.namesakes) :=
    ⟨Dfa.Indexed.namesakes, by decide, rfl⟩
  exact sorted_by_name reachable (.assembled assembled)

end FiniteAutomata
