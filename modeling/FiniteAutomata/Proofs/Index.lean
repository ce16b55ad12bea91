import FiniteAutomata.Transition

/-!
What is found in a numbered list, in a symbol map and in an index of transitions after one change.
An index is tight if no symbol has an entry without transitions; attaching and detaching keep it so.
-/

namespace FiniteAutomata

/-- Every item carries its position. -/
def Numbered {σ : Type} (number : σ → StateId) (items : List σ) : Prop :=
  ∀ (i : StateId) (s : σ), items[i]? = some s → number s = i

namespace Numbered

variable {σ : Type} {number : σ → StateId} {items : List σ}

theorem map {g : σ → σ} (h : Numbered number items) (keeps : ∀ s, number (g s) = number s) :
    Numbered number (items.map g) := by
  intro i s found
  rw [List.getElem?_map] at found
  obtain ⟨old, there, rfl⟩ := Option.map_eq_some_iff.mp found
  rw [keeps, h i old there]

theorem append {s : σ} (h : Numbered number items) (next : number s = items.length) :
    Numbered number (items ++ [s]) := by
  intro i t found
  rw [List.getElem?_append] at found
  split at found
  · exact h i t found
  · rename_i beyond
    obtain ⟨inside, rfl⟩ := List.getElem?_eq_some_iff.mp found
    have last : i = items.length := Nat.le_antisymm
      (Nat.le_of_sub_eq_zero (Nat.lt_one_iff.mp inside)) (Nat.not_lt.mp beyond)
    rw [List.getElem_singleton, next, last]

/-- An edit of the item with one number is a map that leaves all other items alone. -/
theorem set_eq_map {g : σ → σ} {old : σ} {q : StateId} (h : Numbered number items)
    (found : items[q]? = some old) (elsewhere : ∀ s, number s ≠ q → g s = s) :
    items.set q (g old) = items.map g := by
  refine List.ext_getElem? fun i => ?_
  rw [List.getElem?_set, List.getElem?_map]
  by_cases here : q = i
  · subst here
    rw [if_pos rfl, if_pos (List.getElem?_eq_some_iff.mp found).1, found]
    rfl
  · rw [if_neg here]
    cases there : items[i]? with
    | none => rfl
    | some s =>
      have other : number s ≠ q := by rw [h i s there]; exact Ne.symm here
      rw [Option.map_some, elsewhere s other]

end Numbered

theorem not_nodup_of_again {α : Type} {before after : List α} {x : α} (member : x ∈ before) :
    ¬ (before ++ x :: after).Nodup := fun distinct =>
  (List.nodup_append.mp distinct).2.2 x member x List.mem_cons_self rfl

theorem nodup_concat {α : Type} {l : List α} {x : α} (distinct : l.Nodup) (absent : x ∉ l) :
    (l ++ [x]).Nodup := by
  refine List.nodup_append.mpr ⟨distinct, List.pairwise_singleton .., fun y member z last same => ?_⟩
  rw [same, List.mem_singleton.mp last] at member
  exact absent member

/-- The list with one item, which is put at the end unless it is there. -/
def enlist {α : Type} [DecidableEq α] (l : List α) (x : α) : List α :=
  if x ∈ l then l else l ++ [x]

theorem mem_enlist {α : Type} [DecidableEq α] {l : List α} {x y : α} :
    y ∈ enlist l x ↔ y ∈ l ∨ y = x := by
  unfold enlist
  split
  · rename_i member
    constructor
    · exact .inl
    · intro either
      rcases either with old | rfl
      · exact old
      · exact member
  · rw [List.mem_append, List.mem_singleton]

theorem eraseDups_concat {α : Type} [DecidableEq α] (l : List α) (x : α) :
    (l ++ [x]).eraseDups = enlist l.eraseDups x := by
  rw [List.eraseDups_append, enlist]
  by_cases member : x ∈ l
  · rw [if_pos (List.mem_eraseDups.mpr member)]
    simp [List.removeAll, member]
  · rw [if_neg (mt List.mem_eraseDups.mp member)]
    simp [List.removeAll, member, List.eraseDups_cons]

theorem getElem?_enlist {α : Type} [DecidableEq α] {l : List α} {x : α} {i : Nat}
    (inside : i < l.length) : (enlist l x)[i]? = l[i]? := by
  unfold enlist
  split
  · rfl
  · exact List.getElem?_append_left inside

namespace SymbolMap

variable {β : Type}

theorem lookup_cons_eq (x y : Symbol) (v : β) (l : List (Symbol × β)) :
    ((x, v) :: l).lookup y = if y = x then some v else l.lookup y := by
  rw [List.lookup_cons]
  by_cases h : y = x
  · rw [if_pos h, beq_iff_eq.mpr h]
  · rw [if_neg h, beq_eq_false_iff_ne.mpr h]

theorem compare_self (x : Symbol) : compare x x = .eq :=
  @Std.ReflCmp.compare_self Symbol compare _ x

theorem lookup_place (x y : Symbol) (v : β) (l : List (Symbol × β)) :
    (place x v l).lookup y = if y = x then some v else l.lookup y := by
  induction l with
  | nil => rw [place, lookup_cons_eq]
  | cons e rest ih =>
    obtain ⟨z, w⟩ := e
    rw [place]
    split
    · rw [lookup_cons_eq]
    · rename_i same
      obtain rfl := Std.LawfulEqCmp.eq_of_compare same
      rw [lookup_cons_eq, lookup_cons_eq]
      split <;> rfl
    · rename_i greater
      have differ : x ≠ z := by
        rintro rfl
        rw [compare_self] at greater
        cases greater
      rw [lookup_cons_eq, lookup_cons_eq, ih]
      by_cases h : y = z
      · rw [if_pos h, if_neg fun same => differ (same.symm.trans h), if_pos h]
      · rw [if_neg h, if_neg h]

theorem get?_insert (m : SymbolMap β) (x y : Symbol) (v : β) :
    (m.insert x v).get? y = if y = x then some v else m.get? y :=
  lookup_place x y v m.entries

theorem get?_erase (m : SymbolMap β) (x y : Symbol) :
    (m.erase x).get? y = if y = x then none else m.get? y := by
  obtain ⟨l, ascending⟩ := m
  simp only [erase, get?]
  clear ascending
  induction l with
  | nil => simp
  | cons e rest ih =>
    obtain ⟨z, w⟩ := e
    by_cases hz : z = x
    · rw [List.filter_cons_of_neg (by simp [hz]), ih, lookup_cons_eq]
      by_cases h : y = x
      · rw [if_pos h, if_pos h]
      · rw [if_neg h, if_neg h, if_neg (hz ▸ h)]
    · rw [List.filter_cons_of_pos (by simpa using hz), lookup_cons_eq, lookup_cons_eq, ih]
      by_cases h : y = x
      · rw [if_pos h, if_pos h, if_neg fun same => hz (same.symm.trans h)]
      · rw [if_neg h, if_neg h]

theorem keys_nodup (m : SymbolMap β) : m.keys.Nodup := by
  rw [keys, List.Nodup, List.pairwise_map]
  refine m.ascending.imp fun less same => ?_
  rw [Symbol.lt_iff_compare, same, compare_self] at less
  cases less

theorem mem_entries_iff {m : SymbolMap β} {x : Symbol} {v : β} :
    (x, v) ∈ m.entries ↔ m.get? x = some v := by
  have distinct := m.keys_nodup
  rw [keys] at distinct
  rw [get?]
  generalize m.entries = l at distinct
  induction l with
  | nil => simp
  | cons e rest ih =>
    obtain ⟨y, w⟩ := e
    rw [List.map_cons, List.nodup_cons] at distinct
    have later : (x, v) ∈ rest ↔ rest.lookup x = some v := ih distinct.2
    rw [List.mem_cons, lookup_cons_eq, later, Prod.mk.injEq]
    by_cases h : x = y
    · subst h
      have absent : rest.lookup x ≠ some v := fun found =>
        distinct.1 (List.mem_map.mpr ⟨(x, v), later.mpr found, rfl⟩)
      simp [absent, eq_comm]
    · simp [h]

theorem entries_nodup (m : SymbolMap β) : m.entries.Nodup := by
  refine m.ascending.imp fun less same => ?_
  rw [Symbol.lt_iff_compare, same, compare_self] at less
  cases less

/-- Maps in which every look-up finds the same are equal. -/
theorem ext_get? {m n : SymbolMap β} (same : ∀ x, m.get? x = n.get? x) : m = n := by
  have member : ∀ e, e ∈ m.entries ↔ e ∈ n.entries := by
    intro e
    obtain ⟨x, v⟩ := e
    rw [mem_entries_iff, mem_entries_iff, same]
  have perm := (List.perm_ext_iff_of_nodup m.entries_nodup n.entries_nodup).mpr member
  have entries : m.entries = n.entries := by
    refine perm.eq_of_pairwise (fun e f _ _ less greater => ?_) m.ascending n.ascending
    rw [Symbol.lt_iff_compare] at less greater
    rw [Std.OrientedCmp.gt_of_lt less] at greater
    cases greater
  cases m
  cases n
  cases entries
  rfl

end SymbolMap

namespace Adjacency

/-- A symbol without a transition has no entry. -/
def Tight (index : Adjacency) : Prop := ∀ e ∈ index.entries, e.2 ≠ []

theorem tight_empty : (∅ : Adjacency).Tight := fun _ member => by cases member

theorem on_insert (index : Adjacency) (x y : Symbol) (ts : List Transition) :
    on (index.insert x ts) y = if y = x then ts else index.on y := by
  rw [on, SymbolMap.get?_insert]
  split <;> rfl

theorem on_erase (index : Adjacency) (x y : Symbol) :
    on (index.erase x) y = if y = x then [] else index.on y := by
  rw [on, SymbolMap.get?_erase]
  split <;> rfl

theorem on_attach (index : Adjacency) (t : Transition) (x : Symbol) :
    (index.attach t).on x = if x = t.symbol then index.on x ++ [t] else index.on x := by
  rw [attach, on_insert]
  split
  · rename_i same; rw [same]
  · rfl

theorem tight_insert {index : Adjacency} {x : Symbol} {ts : List Transition}
    (tight : index.Tight) (some : ts ≠ []) : Tight (index.insert x ts) := by
  intro e member
  rcases SymbolMap.mem_place member with rfl | member
  · exact some
  · exact tight e member

theorem tight_attach {index : Adjacency} {t : Transition} (tight : index.Tight) :
    (index.attach t).Tight :=
  tight_insert tight (by simp)

theorem tight_erase {index : Adjacency} {x : Symbol} (tight : index.Tight) :
    Tight (index.erase x) :=
  fun e member => tight e (List.mem_filter.mp member).1

theorem Tight.get?_eq {index : Adjacency} (tight : index.Tight) (x : Symbol) :
    index.get? x = if index.on x = [] then none else some (index.on x) := by
  rw [on]
  cases found : index.get? x with
  | none => rfl
  | some ts => exact (if_neg (tight (x, ts) (SymbolMap.mem_entries_iff.mpr found))).symm

/-- The detached transition is taken out of the list for its symbol, and nothing else changes. -/
theorem detach_of_mem {index : Adjacency} {t : Transition} (member : t ∈ index.on t.symbol)
    (tight : index.Tight) :
    ∃ rest, index.detach t = some rest ∧ rest.Tight ∧
      ∀ x, rest.on x = if x = t.symbol then (index.on x).erase t else index.on x := by
  rw [detach, if_pos member]
  split
  · rename_i last
    refine ⟨_, rfl, tight_erase tight, fun x => ?_⟩
    rw [on_erase]
    split
    · rename_i same; rw [same, last]
    · rfl
  · rename_i more
    refine ⟨_, rfl, tight_insert tight more, fun x => ?_⟩
    rw [on_insert]
    split
    · rename_i same; rw [same]
    · rfl

theorem mem_edges_iff_on {index : Adjacency} {t : Transition} :
    t ∈ index.edges ↔ ∃ x, t ∈ index.on x := by
  constructor
  · intro member
    obtain ⟨⟨x, ts⟩, entry, member⟩ := mem_edges.mp member
    refine ⟨x, ?_⟩
    rw [on, SymbolMap.mem_entries_iff.mp entry]
    exact member
  · intro found
    obtain ⟨x, member⟩ := found
    exact mem_edges_of_mem_on member

/-- The index holds, symbol by symbol, the listed transitions of some kind, in the order of the
list. -/
structure Lists (index : Adjacency) (kind : Transition → Bool) (listed : List Transition) :
    Prop where
  on_eq : ∀ x, index.on x = listed.filter fun t => kind t && t.symbol = x
  tight : index.Tight

namespace Lists

variable {index : Adjacency} {kind : Transition → Bool} {listed : List Transition} {t : Transition}

theorem empty (none : ∀ t ∈ listed, ¬ kind t) : (∅ : Adjacency).Lists kind listed := by
  refine ⟨fun x => ?_, tight_empty⟩
  have unused : (listed.filter fun t => kind t && t.symbol = x) = [] := by
    refine List.filter_eq_nil_iff.mpr fun t member here => ?_
    exact none t member (Bool.and_eq_true_iff.mp here).1
  rw [unused]
  rfl

theorem mem_on (h : index.Lists kind listed) {x : Symbol} :
    t ∈ index.on x ↔ t ∈ listed ∧ kind t ∧ t.symbol = x := by
  rw [h.on_eq, List.mem_filter, Bool.and_eq_true, decide_eq_true_eq]

theorem mem_edges (h : index.Lists kind listed) : t ∈ index.edges ↔ t ∈ listed ∧ kind t := by
  simp only [mem_edges_iff_on, h.mem_on, exists_and_left, exists_eq', and_true]

/-- The list of transitions determines the index, entries and all. -/
theorem unique {other : Adjacency} (h : index.Lists kind listed) (h' : other.Lists kind listed) :
    index = other := by
  refine SymbolMap.ext_get? fun x => ?_
  rw [h.tight.get?_eq, h'.tight.get?_eq, h.on_eq, h'.on_eq]

theorem attach (h : index.Lists kind listed) (here : kind t) :
    (index.attach t).Lists kind (listed ++ [t]) := by
  refine ⟨fun x => ?_, tight_attach h.tight⟩
  rw [List.filter_append, ← h.on_eq, on_attach]
  by_cases same : x = t.symbol
  · rw [if_pos same, List.filter_cons_of_pos (by simp [here, same])]
    rfl
  · rw [if_neg same, List.filter_cons_of_neg (by simp [Ne.symm same]), List.filter_nil,
      List.append_nil]

theorem append_other (h : index.Lists kind listed) (other : ¬ kind t) :
    index.Lists kind (listed ++ [t]) := by
  refine ⟨fun x => ?_, h.tight⟩
  rw [List.filter_append, ← h.on_eq, List.filter_cons_of_neg (by simp [other]), List.filter_nil,
    List.append_nil]

theorem detach (h : index.Lists kind listed) (member : t ∈ listed) (here : kind t) :
    ∃ rest, index.detach t = some rest ∧ rest.Lists kind (listed.erase t) := by
  obtain ⟨rest, found, tight, on_rest⟩ := detach_of_mem (h.mem_on.mpr ⟨member, here, rfl⟩) h.tight
  refine ⟨rest, found, fun x => ?_, tight⟩
  rw [on_rest, h.on_eq, ← List.erase_filter]
  by_cases same : x = t.symbol
  · rw [if_pos same]
  · rw [if_neg same, List.erase_of_not_mem]
    simp [Ne.symm same]

theorem erase_other (h : index.Lists kind listed) (other : ¬ kind t) :
    index.Lists kind (listed.erase t) := by
  refine ⟨fun x => ?_, h.tight⟩
  rw [h.on_eq, ← List.erase_filter, List.erase_of_not_mem]
  simp [other]

end Lists
end Adjacency
end FiniteAutomata
