import FiniteAutomata.Proofs.DeclarationOrder

/-!
The names of the states of a subset automaton tell them apart if no name in the automaton it was built
from has a comma. The members can be read off the name then, but for the state without members, which
looks like the one whose only member has the empty name. It is the only state, if it is one at all.
-/

namespace FiniteAutomata

/-! ### Texts that can be read back -/

/-- Names that do not begin with a parenthesis can be read off what is shown. -/
theorem Kind.eq_of_mark {k l : Kind} {m n : String} (plain : m.toList.head? ≠ some '(')
    (plain' : n.toList.head? ≠ some '(') (same : k.mark m = l.mark n) : m = n := by
  have wrapped (name : String) : (accepting.mark name).toList.head? = some '(' := by
    simp [mark]
  cases k with
  | ordinary =>
    cases l with
    | ordinary => exact same
    | accepting =>
      have same : m = accepting.mark n := same
      exact (plain (same ▸ wrapped n)).elim
  | accepting =>
    cases l with
    | ordinary =>
      have same : accepting.mark m = n := same
      exact (plain' (same ▸ wrapped m)).elim
    | accepting => simpa [mark, ← String.toList_inj] using same

/-- Joined names can be read back if none of them holds the separator. -/
theorem intercalate_injective (separator : Char) {k l : List String} (some : k ≠ [])
    (some' : l ≠ []) (plain : ∀ n ∈ k, separator ∉ n.toList)
    (plain' : ∀ n ∈ l, separator ∉ n.toList)
    (same : (String.singleton separator).intercalate k = (String.singleton separator).intercalate l) :
    k = l := by
  have decode {m : List String} (some : m ≠ []) (plain : ∀ n ∈ m, separator ∉ n.toList) :
      ((String.singleton separator).intercalate m).toList.splitOn separator =
        m.map String.toList := by
    rw [String.toList_intercalate, String.toList_singleton]
    refine List.splitOn_intercalate separator (fun letters member => ?_) (by simpa using some)
    obtain ⟨n, there, rfl⟩ := List.mem_map.mp member
    exact plain n there
  have lists := decode some plain
  rw [same, decode some' plain'] at lists
  exact (List.map_inj_right fun m n => String.toList_inj.mp).mp lists.symm

/-! ### Names of sets -/

theorem Nfa.moves_empty (a : Nfa) (w : Word) : a.moves ∅ w = ∅ := by
  induction w with
  | nil => rfl
  | cons x rest ih => exact ih

namespace Dfa

variable {a : Nfa} {d : Dfa} {i j : StateId}

theorem State.perm_of_nameOfMembers {names names' : List String} (some : names ≠ [])
    (some' : names' ≠ []) (plain : ∀ n ∈ names, ',' ∉ n.toList)
    (plain' : ∀ n ∈ names', ',' ∉ n.toList) (same : nameOfMembers names = nameOfMembers names') :
    names.Perm names' := by
  obtain ⟨sorted, perm, _, text⟩ := nameOfMembers_eq names
  obtain ⟨sorted', perm', _, text'⟩ := nameOfMembers_eq names'
  have joined : ",".intercalate sorted = ",".intercalate sorted' := by
    rw [text, text'] at same
    simpa [← String.toList_inj] using same
  have alike : sorted = sorted' := by
    apply intercalate_injective ','
    · rintro rfl
      exact some perm.nil_eq.symm
    · rintro rfl
      exact some' perm'.nil_eq.symm
    · exact fun n member => plain n (perm.mem_iff.mp member)
    · exact fun n member => plain' n (perm'.mem_iff.mp member)
    · exact joined
  rw [alike] at perm
  exact perm.symm.trans perm'

theorem State.head_nameOfMembers (names : List String) :
    (nameOfMembers names).toList.head? ≠ some '(' := by
  simp [nameOfMembers]

theorem nameOf_of_found {q : State} (found : d.states[i]? = some q) : d.nameOf i = q.name := by
  rw [nameOf, found]

namespace Determinizes

/-- If some state has no members, none has. -/
theorem members_eq_empty (e : Determinizes a d) (h : a.WellFormed) (free : a.isEpsilonFree)
    (hi : i < d.size) (hj : j < d.size) (dry : d.members i = ∅) : d.members j = ∅ := by
  have accessible {k : StateId} (exist : k < d.size) : a.Accessible (d.members k) :=
    (e.mem_memberSets_iff h free).mp (mem_memberSets.mpr ⟨k, exist, rfl⟩)
  have initial : a.initial = ∅ := by
    rcases accessible hi with same | ⟨filled, _⟩
    · exact same.symm.trans dry
    · exact (filled dry).elim
  rcases accessible hj with same | ⟨_, w, same⟩
  · exact same.trans initial
  · rw [← same, initial, Nfa.moves_empty]

theorem name_eq (e : Determinizes a d) (exist : i < d.size) :
    d.nameOf i = State.nameOfMembers ((d.members i).toList.map a.nameOf) := by
  obtain ⟨q, found⟩ := exists_state exist
  rw [nameOf_of_found found, members_of_found found, e.standing.name found]

theorem nameOf_injective (e : Determinizes a d) (h : a.WellFormed) (free : a.isEpsilonFree)
    (plain : ∀ q ∈ a.states, ',' ∉ q.name.toList) (hi : i < d.size) (hj : j < d.size)
    (same : d.nameOf i = d.nameOf j) : i = j := by
  apply e.wellFormed.members_injective hi hj
  have inside {k : StateId} (exist : k < d.size) : ∀ q ∈ d.members k, q < a.size :=
    e.members_lt h free exist
  have plainly {k : StateId} (exist : k < d.size) :
      ∀ n ∈ (d.members k).toList.map a.nameOf, ',' ∉ n.toList := by
    intro n member
    obtain ⟨q, there, rfl⟩ := List.mem_map.mp member
    obtain ⟨s, found⟩ := Nfa.exists_state (inside exist q there)
    rw [Nfa.nameOf_of_found found]
    exact plain s (List.mem_of_getElem? found)
  have filled {k : StateId} (some : d.members k ≠ ∅) : (d.members k).toList.map a.nameOf ≠ [] := by
    intro none
    exact some (StateSet.toList_injective (List.map_eq_nil_iff.mp none))
  by_cases dry : d.members i = ∅
  · rw [dry, e.members_eq_empty h free hi hj dry]
  by_cases dry' : d.members j = ∅
  · rw [dry', e.members_eq_empty h free hj hi dry']
  rw [e.name_eq hi, e.name_eq hj] at same
  have perm := State.perm_of_nameOfMembers (filled dry) (filled dry') (plainly hi) (plainly hj) same
  apply h.namesOf_injective (inside hi) (inside hj)
  exact List.toFinset_eq_of_perm _ _ perm

/-- What is shown of two states differs like their names. -/
theorem shownState_injective (e : Determinizes a d) (h : a.WellFormed) (free : a.isEpsilonFree)
    (plain : ∀ q ∈ a.states, ',' ∉ q.name.toList) (hi : i < d.size) (hj : j < d.size)
    (same : d.shownState i = d.shownState j) : i = j := by
  apply e.nameOf_injective h free plain hi hj
  have shown {k : StateId} (exist : k < d.size) :
      ∃ kind : Kind, d.shownState k = kind.mark (d.nameOf k) := by
    obtain ⟨q, found⟩ := exists_state exist
    refine ⟨q.kind, ?_⟩
    rw [shownState, nameOf_of_found found, found]
    rfl
  have brace {k : StateId} (exist : k < d.size) : (d.nameOf k).toList.head? ≠ some '(' := by
    rw [e.name_eq exist]
    exact State.head_nameOfMembers _
  obtain ⟨k, first⟩ := shown hi
  obtain ⟨l, second⟩ := shown hj
  rw [first, second] at same
  exact Kind.eq_of_mark (brace hi) (brace hj) same

end Determinizes

/-- What is read off the states tells them apart if it does so by their numbers. -/
theorem nodup_map_states {β : Type} {f : State → β} {g : StateId → β}
    (read : ∀ i q, d.states[i]? = some q → g i = f q)
    (apart : ∀ i < d.size, ∀ j < d.size, g i = g j → i = j) : (d.states.map f).Nodup := by
  rw [List.Nodup, List.pairwise_map, List.pairwise_iff_getElem]
  intro i j hi hj less same
  rw [← read i _ (List.getElem?_eq_getElem hi), ← read j _ (List.getElem?_eq_getElem hj)] at same
  exact Nat.ne_of_lt less (apart i hi j hj same)

end Dfa

namespace Nfa

variable {a : Nfa}

/-- Without commas in the names of an automaton, the states of its subset automaton differ in their
names and in what is shown of them, and so its transitions can be sorted in one way only. -/
theorem Reachable.determinize_distinct_names (h : Reachable a) (free : a.isEpsilonFree)
    (plain : ∀ q ∈ a.states, ',' ∉ q.name.toList) :
    ∃ d log, a.determinize = ⟨d, log, .ok ()⟩ ∧ (d.states.map Dfa.State.name).Nodup ∧
      (d.states.map Dfa.State.shown).Nodup ∧
      d.sortedTransitions.Pairwise fun t u => Transition.order d.nameOf t u = .lt := by
  obtain ⟨d, log, ran, e⟩ := Dfa.determinize_succeeds h.wellFormed.bounded free
  have named := fun i hi j hj => e.nameOf_injective h.wellFormed free plain (i := i) (j := j) hi hj
  refine ⟨d, log, ran, ?_, ?_, ?_⟩
  · exact Dfa.nodup_map_states (fun i q => Dfa.nameOf_of_found) named
  · refine Dfa.nodup_map_states (g := d.shownState) (fun i q found => ?_) fun i hi j hj =>
      e.shownState_injective h.wellFormed free plain hi hj
    rw [Dfa.shownState, found]
  · exact Transition.strictly_sorted e.wellFormed.distinct fun t ht u hu =>
      Transition.eq_of_byName named (e.wellFormed.ends t ht) (e.wellFormed.ends u hu)

/-- One state has no name, and is alone in a state of the subset automaton. -/
def anonymous : List Operation := [
  .addState "" .ordinary, .addState "q" .accepting, .addInitial 1,
  .addTransition ⟨1, .letter "x", 0⟩, .addTransition ⟨1, .letter "y", 1⟩,
  .addTransition ⟨1, .letter "y", 0⟩]

theorem determinize_distinct_names_anonymous :
    ∃ d log, (run {} anonymous).determinize = ⟨d, log, .ok ()⟩ ∧
      (d.states.map Dfa.State.name).Nodup ∧ (d.states.map Dfa.State.shown).Nodup ∧
      d.sortedTransitions.Pairwise fun t u => Transition.order d.nameOf t u = .lt :=
  Reachable.determinize_distinct_names ⟨anonymous, by decide, rfl⟩ (by decide) (by decide)

end Nfa
end FiniteAutomata
