import FiniteAutomata.Proofs.AccessiblePart
import FiniteAutomata.Text.Table
import Mathlib.Logic.ExistsUnique

/-!
What the transition table of an automaton shows. Every transition has its place in one cell, in the
row of its source and the column of its symbol, and the cell shows the names of the targets. The
cell of a single target without a name looks like one without transitions.
-/

namespace FiniteAutomata

theorem mapM_of_ok {α β : Type} {f : α → Except Error β} {g : α → β} {l : List α}
    (ok : ∀ x ∈ l, f x = .ok (g x)) : l.mapM f = .ok (l.map g) := by
  induction l with
  | nil => rfl
  | cons x rest ih =>
    have later := ih fun y member => ok y (List.mem_cons_of_mem x member)
    rw [List.mapM_cons, ok x List.mem_cons_self, later]
    rfl

/-! ### One cell -/

/-- The cell in a row and a column. The shown states in front of the rows do not count as a column. -/
def Text.Table.cell? (t : Table) (row column : Nat) : Option Cell :=
  (t.rows[row]?).bind fun cells => cells[column + 1]?

/-- Joined names are not seen if there are none, or only the empty one. -/
theorem intercalate_eq_empty_iff {separator : String} (visible : separator ≠ "")
    {names : List String} : separator.intercalate names = "" ↔ names = [] ∨ names = [""] := by
  rw [← String.toList_inj, String.toList_intercalate]
  match names with
  | [] => simp
  | [n] => simp
  | m :: n :: rest => simp [List.intercalate_cons_cons, visible]

theorem mergeSort_invisible_iff {names : List String} :
    names.mergeSort (· ≤ ·) = [] ∨ names.mergeSort (· ≤ ·) = [""] ↔ names = [] ∨ names = [""] := by
  have perm := names.mergeSort_perm (· ≤ ·)
  constructor
  · rintro (none | nameless)
    · rw [none] at perm
      exact .inl perm.nil_eq.symm
    · rw [nameless] at perm
      exact .inr (List.perm_singleton.mp perm.symm)
  · rintro (rfl | rfl)
    · exact .inl List.mergeSort_nil
    · exact .inr (List.mergeSort_singleton "")

namespace Nfa

theorem text_targetsCell (names : List String) : (targetsCell names).text =
    if names = [] ∨ names = [""] then "-"
    else "\x7b" ++ ", ".intercalate (names.mergeSort (· ≤ ·)) ++ "\x7d" := by
  simp only [targetsCell, intercalate_eq_empty_iff (by decide : ", " ≠ ""), mergeSort_invisible_iff]
  rfl

theorem text_targetsCell_eq_dash {names : List String} :
    (targetsCell names).text = "-" ↔ names = [] ∨ names = [""] := by
  rw [text_targetsCell]
  split
  · rename_i invisible
    exact iff_of_true rfl invisible
  · rename_i visible
    refine iff_of_false (fun same => ?_) visible
    have first := congrArg String.toList same
    simp at first

/-- What a cell shows of the transitions of one state on one symbol: the names of their targets,
sorted, or a dash if that leaves nothing to be seen. -/
structure Shows (a : Nfa) (ts : List Transition) (cell : Text.Cell) : Prop where
  dash : cell.text = "-" ↔ ts = [] ∨ ∃ t, ts = [t] ∧ a.nameOf t.target = ""
  names : cell.text ≠ "-" → ∃ sorted : List String,
    sorted.Perm (ts.map fun t => a.nameOf t.target) ∧ sorted.Pairwise (· ≤ ·) ∧
      cell.text = "\x7b" ++ ", ".intercalate sorted ++ "\x7d"

theorem shows_targetsCell (a : Nfa) (ts : List Transition) :
    a.Shows ts (targetsCell (ts.map fun t => a.nameOf t.target)) where
  dash := by
    rw [text_targetsCell_eq_dash, List.map_eq_nil_iff, List.map_eq_singleton_iff]
  names visible := by
    rw [Ne, text_targetsCell_eq_dash] at visible
    refine ⟨_, List.mergeSort_perm _ (· ≤ ·), ascending_mergeSort _, ?_⟩
    rw [text_targetsCell, if_neg visible]

/-! ### The whole table -/

variable {a : Nfa}

theorem WellFormed.nodup_columns (h : WellFormed a) : a.columns.Nodup := by
  unfold columns
  split
  · exact h.letters
  · exact List.nodup_cons.mpr ⟨h.proper, h.letters⟩

theorem columns_eq (a : Nfa) : a.columns =
    if ∃ t ∈ a.transitions, t.symbol = .epsilon then .epsilon :: a.alphabet.letters
    else a.alphabet.letters := by
  have free : a.isEpsilonFree = true ↔ ¬ ∃ t ∈ a.transitions, t.symbol = .epsilon := by
    simp [isEpsilonFree, Transition.isEpsilon, ← Symbol.isEpsilon_iff]
  simp only [columns, free, ite_not]

theorem WellFormed.mem_columns (h : WellFormed a) {t : Transition} (listed : t ∈ a.transitions) :
    t.symbol ∈ a.columns := by
  rw [columns_eq]
  by_cases epsilon : t.symbol = .epsilon
  · rw [if_pos ⟨t, listed, epsilon⟩, epsilon]
    exact List.mem_cons_self
  · have letter := h.known t listed epsilon
    split
    · exact List.mem_cons_of_mem _ letter
    · exact letter

theorem WellFormed.table_eq (h : WellFormed a) : a.table = .ok {
    header := Text.header a.columns
    rows := a.states.map fun q => Text.stateCell q.shown (q.id ∈ a.initial) q.isAccepting ::
      a.columns.map fun x => targetsCell ((a.outboundOn q.id x).map fun t => a.nameOf t.target) } := by
  have names : ∀ q ∈ a.states, ∀ x,
      a.targetNames q x = .ok ((a.outboundOn q.id x).map fun t => a.nameOf t.target) := by
    intro q member x
    obtain ⟨i, found⟩ := List.mem_iff_getElem?.mp member
    have here : a.outboundOn q.id x = q.outbound.on x := by
      rw [outboundOn, h.numbered i q found, found]
    rw [here]
    refine mapM_of_ok fun t there => ?_
    obtain ⟨listed, _⟩ := (h.mirrored q member).outbound.mem_on.mp there
    obtain ⟨s, looked, _, name⟩ := state_of_lt (h.ends t listed).2
    rw [looked, ← name]
    rfl
  have rows : ∀ q ∈ a.states, a.row q = .ok (
      Text.stateCell q.shown (q.id ∈ a.initial) q.isAccepting :: a.columns.map fun x =>
        targetsCell ((a.outboundOn q.id x).map fun t => a.nameOf t.target)) := by
    intro q member
    have cells := mapM_of_ok (l := a.columns) (f := fun x => targetsCell <$> a.targetNames q x)
      (g := fun x => targetsCell ((a.outboundOn q.id x).map fun t => a.nameOf t.target))
      fun x _ => by rw [names q member x]; rfl
    rw [row, cells]
    rfl
  rw [table, mapM_of_ok rows]
  rfl

/-- The transitions that have their place in a cell. -/
def entries (a : Nfa) (row column : Nat) : List Transition :=
  match a.columns[column]? with
  | some x => a.transitions.filter fun t => t.source = row ∧ t.symbol = x
  | none => []

theorem mem_entries {t : Transition} {row column : Nat} : t ∈ a.entries row column ↔
    t ∈ a.transitions ∧ t.source = row ∧ a.columns[column]? = some t.symbol := by
  unfold entries
  split
  · rename_i x found
    rw [List.mem_filter, decide_eq_true_eq, found, Option.some.injEq, eq_comm (a := x)]
  · rename_i missing
    simp [missing]

/-- A table with one row for each state and one column for each symbol in use or in the alphabet,
in which every transition has exactly one place. -/
structure Tabulated (a : Nfa) (t : Text.Table) : Prop where
  columns : a.columns = if ∃ u ∈ a.transitions, u.symbol = .epsilon then
    .epsilon :: a.alphabet.letters else a.alphabet.letters
  header : t.header.map Text.Cell.text = "State" :: a.columns.map Symbol.label
  rows : t.rows.length = a.size
  cell : ∀ row < a.size, ∀ column < a.columns.length, ∃ c,
    t.cell? row column = some c ∧ a.Shows (a.entries row column) c
  once : ∀ u ∈ a.transitions, ∃! place : Nat × Nat, u ∈ a.entries place.1 place.2

theorem WellFormed.tabulated (h : WellFormed a) : ∃ t, a.table = .ok t ∧ Tabulated a t := by
  refine ⟨_, h.table_eq, ?_⟩
  constructor
  case columns => exact columns_eq a
  case header =>
    rw [Text.header, List.map_cons, List.map_map]
    rfl
  case rows => exact List.length_map _
  case cell =>
    intro q exist k inside
    obtain ⟨s, found⟩ := exists_state exist
    have column := List.getElem?_eq_getElem inside
    have shared : a.entries q k = a.outboundOn q a.columns[k] := by
      rw [entries, column, h.outboundOn_eq]
    refine ⟨_, ?_, a.shows_targetsCell (a.entries q k)⟩
    rw [Text.Table.cell?, List.getElem?_map, found, shared, ← h.numbered q s found]
    show (a.columns.map _)[k]? = _
    rw [List.getElem?_map, column]
    rfl
  case once =>
    intro u listed
    obtain ⟨k, column⟩ := List.mem_iff_getElem?.mp (h.mem_columns listed)
    refine ⟨(u.source, k), mem_entries.mpr ⟨listed, rfl, column⟩, ?_⟩
    rintro ⟨q, l⟩ there
    obtain ⟨_, source, column'⟩ := mem_entries.mp there
    obtain ⟨inside, _⟩ := List.getElem?_eq_some_iff.mp column
    have same : k = l := (List.getElem?_inj inside h.nodup_columns).mp (column.trans column'.symm)
    exact Prod.ext source.symm same.symm

theorem Reachable.table_tabulated (h : Reachable a) : ∃ t, a.table = .ok t ∧ Tabulated a t :=
  h.wellFormed.tabulated

/-- Transitions to a state without a name, alone and beside another one. -/
def nameless : List Operation := [
  .addState "" .ordinary, .addState "q" .accepting, .addInitial 1,
  .addTransition ⟨1, .letter "x", 0⟩, .addTransition ⟨1, .letter "y", 1⟩,
  .addTransition ⟨1, .letter "y", 0⟩, .addTransition ⟨0, .epsilon, 1⟩]

theorem table_tabulated_nameless :
    ∃ t, (run {} nameless).table = .ok t ∧ Tabulated (run {} nameless) t :=
  Reachable.table_tabulated ⟨nameless, by decide, rfl⟩

/-- A dash does not mean that there is no transition. -/
theorem dash_hides_nameless : ∃ t, (run {} nameless).table = .ok t ∧
    (t.cell? 1 1).map Text.Cell.text = some "-" ∧
    (run {} nameless).entries 1 1 = [⟨1, .letter "x", 0⟩] := by
  have wellFormed : WellFormed (run {} nameless) := wellFormed_empty.run (by decide)
  obtain ⟨t, tabled, tabulated⟩ := wellFormed.tabulated
  obtain ⟨c, there, shows⟩ := tabulated.cell 1 (by decide) 1 (by decide)
  have single : (run {} nameless).entries 1 1 = [⟨1, .letter "x", 0⟩] := by decide
  have dash : c.text = "-" := shows.dash.mpr (.inr ⟨_, single, by decide⟩)
  exact ⟨t, tabled, by rw [there, Option.map_some, dash], single⟩

end Nfa
end FiniteAutomata
