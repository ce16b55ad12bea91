import FiniteAutomata.Proofs.DistinctNames
import FiniteAutomata.Proofs.Sorting
import FiniteAutomata.Proofs.TransitionTable
import FiniteAutomata.Text.Listing

/-!
The listing of an automaton can be read back if the separators of the listing are not part of a name
or of a label. Lines end at the first line break, the source of a transition at the first comma, the
symbol at the next blank. Dashes and arrows need no care, and neither does a name that looks like one
of the fixed lines.
-/

namespace FiniteAutomata

/-! ### Reading a text from the left -/

/-- What stands before the first separator can be read off, and so can what follows it. -/
theorem eq_of_separated {separator : Char} {k l m n : List Char} (plain : separator ∉ k)
    (plain' : separator ∉ l) (same : k ++ separator :: m = l ++ separator :: n) :
    k = l ∧ m = n := by
  -- The longer of the two beginnings would hold the separator that ends the shorter one.
  rcases List.append_eq_append_iff.mp same with ⟨more, rfl, rest⟩ | ⟨more, rfl, rest⟩
  · cases more with
    | nil => exact ⟨(List.append_nil k).symm, (List.cons.inj rest).2⟩
    | cons c more =>
      obtain ⟨rfl, _⟩ := List.cons.inj rest
      exact (plain' (by simp)).elim
  · cases more with
    | nil => exact ⟨List.append_nil l, (List.cons.inj rest).2.symm⟩
    | cons c more =>
      obtain ⟨rfl, _⟩ := List.cons.inj rest
      exact (plain (by simp)).elim

theorem Kind.eq_of_mark_same {k l : Kind} {n : String} (same : k.mark n = l.mark n) : k = l := by
  have longer : (accepting.mark n).toList.length = n.toList.length + 2 := by
    simp [mark]
  have differ : accepting.mark n ≠ n := by
    intro same
    rw [same] at longer
    omega
  cases k with
  | ordinary =>
    cases l with
    | ordinary => rfl
    | accepting => exact (differ same.symm).elim
  | accepting =>
    cases l with
    | ordinary => exact (differ same).elim
    | accepting => rfl

/-- A state is shown with no other characters than those of its name and parentheses. -/
theorem Kind.mem_mark {k : Kind} {n : String} {c : Char} (h : c ∈ (k.mark n).toList) :
    c ∈ n.toList ∨ c = '(' ∨ c = ')' := by
  cases k with
  | ordinary => exact .inl h
  | accepting =>
    have h : c = '(' ∨ c ∈ n.toList ∨ c = ')' := by simpa [mark, or_assoc] using h
    rwa [or_left_comm] at h

namespace Text

def ended (lines : List String) : String := String.join (lines.map (· ++ "\n"))

theorem ended_cons (line : String) (lines : List String) :
    (ended (line :: lines)).toList = line.toList ++ '\n' :: (ended lines).toList := by
  simp [ended]

theorem ended_injective {k l : List String} (plain : ∀ n ∈ k, '\n' ∉ n.toList)
    (plain' : ∀ n ∈ l, '\n' ∉ n.toList) (same : ended k = ended l) : k = l := by
  have same : (ended k).toList = (ended l).toList := congrArg String.toList same
  induction k generalizing l with
  | nil =>
    cases l with
    | nil => rfl
    | cons n l => simp [ended] at same
  | cons m k ih =>
    cases l with
    | nil => simp [ended] at same
    | cons n l =>
      rw [List.forall_mem_cons] at plain plain'
      rw [ended_cons, ended_cons] at same
      obtain ⟨line, rest⟩ := eq_of_separated plain.1 plain'.1 same
      rw [String.toList_inj.mp line, ih plain.2 plain'.2 (String.toList_inj.mp rest) rest]

theorem framed_eq (first second third last : String) (lines : List String) :
    first ++ "\n" ++ second ++ ("\n" ++ third ++ "\n") ++ String.join (lines.map (· ++ "\n")) ++
      (last ++ "\n") = ended (first :: second :: third :: (lines ++ [last])) := by
  simp [ended, String.append_assoc]

theorem listing_eq (states transitions : List String) :
    listing states transitions = ended ("---------- STATES ----------" :: " ".intercalate states ::
      "---------TRANSITION---------" :: (transitions ++ ["----------------------------"])) := by
  rw [← framed_eq]
  rfl

theorem eq_nil_of_intercalate {l : List String} (filled : ∀ n ∈ l, n ≠ "")
    (none : " ".intercalate l = "") : l = [] := by
  rcases (intercalate_eq_empty_iff (by decide)).mp none with rfl | rfl
  · rfl
  · exact (filled "" List.mem_cons_self rfl).elim

theorem mem_intercalate {separator : String} {l : List String} {c : Char}
    (h : c ∈ (separator.intercalate l).toList) : c ∈ separator.toList ∨ ∃ n ∈ l, c ∈ n.toList := by
  induction l with
  | nil => simp at h
  | cons n l ih =>
    cases l with
    | nil =>
      rw [String.intercalate_singleton] at h
      exact .inr ⟨n, List.mem_cons_self, h⟩
    | cons m l =>
      rw [String.intercalate_cons_cons, String.toList_append, String.toList_append,
        List.mem_append, List.mem_append] at h
      rcases h with (h | h) | h
      · exact .inr ⟨n, List.mem_cons_self, h⟩
      · exact .inl h
      · refine (ih h).imp_right fun ⟨k, member, there⟩ => ?_
        exact ⟨k, List.mem_cons_of_mem n member, there⟩

/-- Without a blank in it, a name that is not empty can be read off a line of names. -/
theorem names_injective {k l : List String} (filled : ∀ n ∈ k, n ≠ "") (filled' : ∀ n ∈ l, n ≠ "")
    (plain : ∀ n ∈ k, ' ' ∉ n.toList) (plain' : ∀ n ∈ l, ' ' ∉ n.toList)
    (same : " ".intercalate k = " ".intercalate l) : k = l := by
  by_cases none : k = []
  · subst none
    exact (eq_nil_of_intercalate filled' same.symm).symm
  by_cases none' : l = []
  · subst none'
    exact eq_nil_of_intercalate filled same
  exact intercalate_injective ' ' none none' plain plain' same

/-- The states and transitions can be read off a listing. -/
theorem listing_injective {k l m n : List String} (filled : ∀ s ∈ k, s ≠ "")
    (filled' : ∀ s ∈ l, s ≠ "") (plain : ∀ s ∈ k, ' ' ∉ s.toList ∧ '\n' ∉ s.toList)
    (plain' : ∀ s ∈ l, ' ' ∉ s.toList ∧ '\n' ∉ s.toList) (lines : ∀ s ∈ m, '\n' ∉ s.toList)
    (lines' : ∀ s ∈ n, '\n' ∉ s.toList) (same : listing k m = listing l n) : k = l ∧ m = n := by
  have unbroken {states transitions : List String} (plain : ∀ s ∈ states, '\n' ∉ s.toList)
      (lines : ∀ s ∈ transitions, '\n' ∉ s.toList) :
      ∀ s ∈ "---------- STATES ----------" :: " ".intercalate states ::
        "---------TRANSITION---------" :: (transitions ++ ["----------------------------"]),
        '\n' ∉ s.toList := by
    have joined : '\n' ∉ (" ".intercalate states).toList := by
      intro broken
      rcases mem_intercalate broken with blank | ⟨s, member, there⟩
      · exact absurd blank (by decide)
      · exact plain s member there
    simp only [List.forall_mem_cons, List.forall_mem_append]
    exact ⟨by decide, joined, by decide, lines, by decide, List.forall_mem_nil _⟩
  rw [listing_eq, listing_eq] at same
  have same := ended_injective (unbroken (fun s member => (plain s member).2) lines)
    (unbroken (fun s member => (plain' s member).2) lines') same
  obtain ⟨_, names, same⟩ := List.cons.inj same |>.imp_right List.cons.inj
  have transitions := List.append_cancel_right (List.cons.inj same).2
  refine ⟨?_, transitions⟩
  exact names_injective filled filled' (fun s member => (plain s member).1)
    (fun s member => (plain' s member).1) names

end Text

/-! ### Plain names and labels -/

/-- A name without the characters that separate and mark names in a listing. -/
def PlainName (n : String) : Prop := n ≠ "" ∧ ∀ c ∈ [' ', '\n', ',', '(', ')'], c ∉ n.toList

-- By the list of separators; the instance that is found for itself goes through all characters.
instance : DecidablePred PlainName := fun _ =>
  @instDecidableAnd _ _ inferInstance (List.decidableBAll _ _)

namespace PlainName

variable {n : String}

theorem mark_ne_empty (h : PlainName n) (k : Kind) : k.mark n ≠ "" := by
  cases k with
  | ordinary => exact h.1
  | accepting => simp [Kind.mark]

theorem notMem_mark (h : PlainName n) (k : Kind) {c : Char} (separates : c ∈ [' ', '\n', ',']) :
    c ∉ (k.mark n).toList := by
  intro member
  rcases Kind.mem_mark member with inside | rfl | rfl
  · exact h.2 c (List.mem_append_left ['(', ')'] separates) inside
  · exact absurd separates (by decide)
  · exact absurd separates (by decide)

theorem head_ne (h : PlainName n) : n.toList.head? ≠ some '(' :=
  fun first => h.2 '(' (by decide) (List.mem_of_head? first)

theorem eq_of_mark {m : String} {k l : Kind} (h : PlainName m) (g : PlainName n)
    (same : k.mark m = l.mark n) : m = n ∧ k = l := by
  obtain rfl := Kind.eq_of_mark h.head_ne g.head_ne same
  exact ⟨rfl, Kind.eq_of_mark_same same⟩

end PlainName

/-- A letter whose label ends at the first blank and does not look like the empty word. -/
def Symbol.Plain : Symbol → Prop
  | epsilon => True
  | letter x => x ≠ "ε" ∧ ' ' ∉ x.toList ∧ '\n' ∉ x.toList

namespace Symbol.Plain

variable {x y : Symbol}

instance : DecidablePred Symbol.Plain
  | epsilon => inferInstanceAs (Decidable True)
  | letter _ => inferInstanceAs (Decidable (_ ∧ _ ∧ _))

theorem notMem_label (h : x.Plain) : ' ' ∉ x.label.toList ∧ '\n' ∉ x.label.toList := by
  cases x with
  | epsilon => decide
  | letter x => exact h.2

theorem eq_of_label (h : x.Plain) (g : y.Plain) (same : x.label = y.label) : x = y := by
  cases x with
  | epsilon =>
    cases y with
    | epsilon => rfl
    | letter y => exact (g.1 same.symm).elim
  | letter x =>
    cases y with
    | epsilon => exact (h.1 same).elim
    | letter y => exact congrArg letter same

end Symbol.Plain

/-! ### Automata -/

namespace Nfa

/-- Names and labels are free of what separates them in the listing. Any other character, other white
space included, may occur in them. -/
structure Plain (a : Nfa) : Prop where
  names : ∀ q ∈ a.states, PlainName q.name
  labels : ∀ t ∈ a.transitions, t.symbol.Plain

variable {a b : Nfa} {p q : StateId} {t u : Transition}

theorem shownState_of_found {state : State} (found : a.states[q]? = some state) :
    a.shownState q = state.shown := by
  rw [shownState, found]

theorem toList_shown (a : Nfa) (t : Transition) : (a.shown t).toList =
    (a.shownState t.source).toList ++ ',' :: ' ' ::
      (t.symbol.label.toList ++ ' ' :: '-' :: '-' :: '>' :: ' ' ::
        (a.shownState t.target).toList) := by
  simp [shown]

namespace Plain

theorem found (h : a.Plain) (exist : q < a.size) :
    ∃ state, a.states[q]? = some state ∧ PlainName state.name := by
  obtain ⟨state, found⟩ := exists_state exist
  exact ⟨state, found, h.names state (List.mem_of_getElem? found)⟩

theorem notMem_shownState (h : a.Plain) (exist : q < a.size) {c : Char}
    (separates : c ∈ [' ', '\n', ',']) : c ∉ (a.shownState q).toList := by
  obtain ⟨state, found, plain⟩ := h.found exist
  rw [shownState_of_found found]
  exact plain.notMem_mark state.kind separates

theorem shown_unbroken (h : a.Plain) (g : WellFormed a) (listed : t ∈ a.transitions) :
    '\n' ∉ (a.shown t).toList := by
  obtain ⟨source, target⟩ := g.ends t listed
  have separates : '\n' ∈ [' ', '\n', ','] := by decide
  have source := h.notMem_shownState source separates
  have target := h.notMem_shownState target separates
  have label := (h.labels t listed).notMem_label.2
  simp [toList_shown, source, target, label]

end Plain

namespace WellFormed

theorem shownState_injective (h : WellFormed a) (plain : a.Plain) (hp : p < a.size) (hq : q < a.size)
    (same : a.shownState p = a.shownState q) : p = q := by
  obtain ⟨state, found, clean⟩ := plain.found hp
  obtain ⟨state', found', clean'⟩ := plain.found hq
  rw [shownState_of_found found, shownState_of_found found'] at same
  apply h.nameOf_injective hp hq
  rw [nameOf_of_found found, nameOf_of_found found']
  exact (clean.eq_of_mark clean' same).1

/-- The source ends at the first comma and the symbol at the next blank. -/
theorem shown_injective (h : WellFormed a) (plain : a.Plain)
    (ht : t.source < a.size ∧ t.target < a.size) (hu : u.source < a.size ∧ u.target < a.size)
    (labelled : t.symbol.Plain) (labelled' : u.symbol.Plain) (same : a.shown t = a.shown u) :
    t = u := by
  have same := congrArg String.toList same
  rw [toList_shown, toList_shown] at same
  obtain ⟨source, rest⟩ := eq_of_separated (plain.notMem_shownState ht.1 (by decide))
    (plain.notMem_shownState hu.1 (by decide)) same
  obtain ⟨label, rest⟩ := eq_of_separated labelled.notMem_label.1 labelled'.notMem_label.1
    (List.cons.inj rest).2
  have target := @List.append_cancel_left _ ['-', '-', '>', ' '] _ _ rest
  obtain ⟨p, x, q⟩ := t
  obtain ⟨p', y, q'⟩ := u
  congr
  · exact h.shownState_injective plain ht.1 hu.1 (String.toList_inj.mp source)
  · exact labelled.eq_of_label labelled' (String.toList_inj.mp label)
  · exact h.shownState_injective plain ht.2 hu.2 (String.toList_inj.mp target)

/-- States that are shown alike are the same up to their transitions. -/
theorem bare_eq (ha : WellFormed a) (hb : WellFormed b) (pa : a.Plain) (pb : b.Plain)
    (same : a.states.map State.shown = b.states.map State.shown) : a.bare = b.bare := by
  have size : a.states.length = b.states.length := by simpa using congrArg List.length same
  refine List.ext_getElem (by simpa [bare] using size) fun i hi hi' => ?_
  rw [bare, List.length_map] at hi hi'
  have found := List.getElem?_eq_getElem hi
  have found' := List.getElem?_eq_getElem hi'
  have shown : a.states[i].shown = b.states[i].shown := by
    have same := congrArg (·[i]?) same
    simpa [found, found'] using same
  obtain ⟨name, kind⟩ := (pa.names _ (List.getElem_mem hi)).eq_of_mark
    (pb.names _ (List.getElem_mem hi')) shown
  have number : a.states[i].id = b.states[i].id := by
    rw [ha.numbered i _ found, hb.numbered i _ found']
  simp only [bare, List.getElem_map, State.bare, name, kind, number]

theorem mem_of_lines (ha : WellFormed a) (hb : WellFormed b) (pa : a.Plain) (pb : b.Plain)
    (same : a.bare = b.bare)
    (lines : a.sortedTransitions.map a.shown = b.sortedTransitions.map b.shown)
    (listed : t ∈ a.transitions) : t ∈ b.transitions := by
  have line : a.shown t ∈ a.sortedTransitions.map a.shown :=
    List.mem_map_of_mem (List.mem_mergeSort.mpr listed)
  rw [lines] at line
  obtain ⟨u, member, alike⟩ := List.mem_map.mp line
  have there : u ∈ b.transitions := List.mem_mergeSort.mp member
  have ends := ha.ends t listed
  rw [← size_of_bare same.symm] at ends
  rw [← shown_of_bare same.symm] at alike
  rwa [← hb.shown_injective pb (hb.ends u there) ends (pb.labels u there) (pa.labels t listed) alike]

theorem listing_eq_of_same (ha : WellFormed a) (hb : WellFormed b) (same : a.bare = b.bare)
    (listed : ∀ t, t ∈ a.transitions ↔ t ∈ b.transitions) : a.listing = b.listing := by
  have states : a.states.map State.shown = b.states.map State.shown :=
    map_of_bare (fun _ => rfl) same
  have name : a.nameOf = b.nameOf := funext (nameOf_of_bare same)
  have shown : a.shown = b.shown := funext (shown_of_bare same)
  have sorted : a.sortedTransitions = b.sortedTransitions := by
    refine Transition.eq_of_strictly_ascending ha.sortedTransitions_strict ?_ fun t => ?_
    · rw [name]
      exact hb.sortedTransitions_strict
    · exact List.mem_mergeSort.trans ((listed t).trans List.mem_mergeSort.symm)
  rw [listing, listing, states, sorted, shown]

end WellFormed

theorem Plain.listing_injective (pa : a.Plain) (pb : b.Plain) (ha : WellFormed a) (hb : WellFormed b)
    (same : a.listing = b.listing) : a.states.map State.shown = b.states.map State.shown ∧
      a.sortedTransitions.map a.shown = b.sortedTransitions.map b.shown := by
  have filled {c : Nfa} (h : c.Plain) : ∀ s ∈ c.states.map State.shown, s ≠ "" := by
    rw [List.forall_mem_map]
    exact fun q member => (h.names q member).mark_ne_empty q.kind
  have plain {c : Nfa} (h : c.Plain) :
      ∀ s ∈ c.states.map State.shown, ' ' ∉ s.toList ∧ '\n' ∉ s.toList := by
    rw [List.forall_mem_map]
    exact fun q member => ⟨(h.names q member).notMem_mark q.kind (by decide),
      (h.names q member).notMem_mark q.kind (by decide)⟩
  have lines {c : Nfa} (h : c.Plain) (g : WellFormed c) :
      ∀ s ∈ c.sortedTransitions.map c.shown, '\n' ∉ s.toList := by
    rw [List.forall_mem_map]
    exact fun t member => h.shown_unbroken g (List.mem_mergeSort.mp member)
  exact Text.listing_injective (filled pa) (filled pb) (plain pa) (plain pb) (lines pa ha)
    (lines pb hb) same

/-- Plain automata have the same listing exactly if they have the same states in the same order and
the same transitions, in whatever order these were added. -/
theorem Reachable.listing_eq_iff (ha : Reachable a) (hb : Reachable b) (pa : a.Plain) (pb : b.Plain) :
    a.listing = b.listing ↔ a.bare = b.bare ∧ ∀ t, t ∈ a.transitions ↔ t ∈ b.transitions := by
  have ha := ha.wellFormed
  have hb := hb.wellFormed
  constructor
  · intro same
    obtain ⟨states, lines⟩ := pa.listing_injective pb ha hb same
    have bare := ha.bare_eq hb pa pb states
    exact ⟨bare, fun t => ⟨ha.mem_of_lines hb pa pb bare lines,
      hb.mem_of_lines ha pb pa bare.symm lines.symm⟩⟩
  · rintro ⟨bare, listed⟩
    exact ha.listing_eq_of_same hb bare listed

/-- Names and labels of dashes and arrows, one of them a line of the listing, and a tab in a name. -/
def arrows (ts : List Transition) : List Operation := [
  .addState "---------TRANSITION---------" .ordinary, .addState "-->" .accepting,
  .addState "a\tb" .ordinary] ++ ts.map .addTransition

theorem listing_eq_iff_arrows :
    let first := run {} (arrows [⟨0, .letter "-->", 1⟩, ⟨1, .epsilon, 2⟩, ⟨1, .letter "", 1⟩])
    let second := run {} (arrows [⟨1, .letter "", 1⟩, ⟨0, .letter "-->", 1⟩, ⟨1, .epsilon, 2⟩])
    first.listing = second.listing ↔
      first.bare = second.bare ∧ ∀ t, t ∈ first.transitions ↔ t ∈ second.transitions :=
  Reachable.listing_eq_iff ⟨_, by decide, rfl⟩ ⟨_, by decide, rfl⟩ ⟨by decide, by decide⟩
    ⟨by decide, by decide⟩

end Nfa
end FiniteAutomata
