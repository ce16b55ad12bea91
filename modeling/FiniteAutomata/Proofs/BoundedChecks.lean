import FiniteAutomata.Comparison
import FiniteAutomata.Proofs.Paths
import FiniteAutomata.Proofs.Shortlex
import FiniteAutomata.Proofs.Simulation
import Mathlib

/-!
The words up to a length are listed completely, once each and in shortlex order, where letters are
compared by their places in the alphabet. So a check that goes through them overlooks none, and what it
reports is the first word on which two automata disagree.
-/

namespace FiniteAutomata

/-! ### The list of words -/

namespace Alphabet

variable {a : Alphabet} {n : Nat} {v w : Word} {x y : Symbol}

/-- By their places in the alphabet. -/
def Earlier (a : Alphabet) (x y : Symbol) : Prop := a.letters.idxOf x < a.letters.idxOf y

/-- Shorter words come first, words of one length are compared letter by letter. -/
def Precedes (a : Alphabet) (v w : Word) : Prop := List.Shortlex a.Earlier v w

instance : Std.Asymm a.Earlier := ⟨fun _ _ less => Nat.lt_asymm less⟩

theorem Precedes.asymm (h : a.Precedes v w) : ¬ a.Precedes w v :=
  Std.Asymm.asymm (r := List.Shortlex a.Earlier) v w h

/-- Words over the alphabet up to a length. -/
def Covers (a : Alphabet) (n : Nat) (w : Word) : Prop := w.length ≤ n ∧ ∀ x ∈ w, x ∈ a.letters

structure Enumerates (a : Alphabet) (n : Nat) (ws : List Word) : Prop where
  complete : ∀ w, w ∈ ws ↔ a.Covers n w
  once : ws.Nodup
  ordered : ws.Pairwise a.Precedes

theorem pairwise_letters (distinct : a.letters.Nodup) : a.letters.Pairwise a.Earlier := by
  refine List.pairwise_iff_getElem.mpr fun i j hi hj less => ?_
  rw [Earlier, distinct.idxOf_getElem, distinct.idxOf_getElem]
  exact less

theorem mem_wordsOfLength : w ∈ a.wordsOfLength n ↔ w.length = n ∧ ∀ x ∈ w, x ∈ a.letters := by
  induction n generalizing w with
  | zero =>
    rw [wordsOfLength, List.mem_singleton, List.length_eq_zero_iff]
    constructor
    · rintro rfl
      exact ⟨rfl, fun _ member => (List.not_mem_nil member).elim⟩
    · exact And.left
  | succ n ih =>
    simp only [wordsOfLength, List.mem_flatMap, List.mem_map, ih]
    constructor
    · rintro ⟨x, letter, v, ⟨length, letters⟩, rfl⟩
      exact ⟨congrArg (· + 1) length, List.forall_mem_cons.mpr ⟨letter, letters⟩⟩
    · rintro ⟨length, letters⟩
      cases w with
      | nil => cases length
      | cons x v =>
        obtain ⟨letter, later⟩ := List.forall_mem_cons.mp letters
        exact ⟨x, letter, v, ⟨Nat.succ.inj length, later⟩, rfl⟩

/-- The first letter decides; where it is the same, what comes after it is in order already. -/
theorem pairwise_wordsOfLength (distinct : a.letters.Nodup) (n : Nat) :
    (a.wordsOfLength n).Pairwise (List.Lex a.Earlier) := by
  induction n with
  | zero => exact List.pairwise_singleton _ _
  | succ n ih =>
    rw [wordsOfLength, List.pairwise_flatMap]
    constructor
    · intro x _
      rw [List.pairwise_map]
      exact ih.imp .cons
    · refine (pairwise_letters distinct).imp fun less v hv w hw => ?_
      obtain ⟨v, _, rfl⟩ := List.mem_map.mp hv
      obtain ⟨w, _, rfl⟩ := List.mem_map.mp hw
      exact .rel less

theorem mem_words : w ∈ a.words n ↔ a.Covers n w := by
  simp only [words, List.mem_flatMap, List.mem_range, mem_wordsOfLength, Nat.lt_succ_iff]
  constructor
  · rintro ⟨_, bound, rfl, letters⟩
    exact ⟨bound, letters⟩
  · rintro ⟨bound, letters⟩
    exact ⟨w.length, bound, rfl, letters⟩

theorem pairwise_words (distinct : a.letters.Nodup) (n : Nat) :
    (a.words n).Pairwise a.Precedes := by
  rw [words, List.pairwise_flatMap]
  constructor
  · intro k _
    refine (pairwise_wordsOfLength distinct k).imp_of_mem fun hv hw less => ?_
    exact .of_lex ((mem_wordsOfLength.mp hv).1.trans (mem_wordsOfLength.mp hw).1.symm) less
  · refine List.pairwise_lt_range.imp fun less v hv w hw => .of_length_lt ?_
    rwa [(mem_wordsOfLength.mp hv).1, (mem_wordsOfLength.mp hw).1]

theorem enumerates_words (distinct : a.letters.Nodup) (n : Nat) :
    a.Enumerates n (a.words n) where
  complete _ := mem_words
  once := (pairwise_words distinct n).imp fun less same => by
    subst same
    exact less.asymm less
  ordered := pairwise_words distinct n

/-- The order leaves no choice. -/
theorem Enumerates.unique {ws ws' : List Word} (h : a.Enumerates n ws) (h' : a.Enumerates n ws') :
    ws = ws' := by
  have perm : ws.Perm ws' := (List.perm_ext_iff_of_nodup h.once h'.once).mpr fun w =>
    (h.complete w).trans (h'.complete w).symm
  exact perm.eq_of_pairwise (fun _ _ _ _ less greater => (less.asymm greater).elim) h.ordered h'.ordered

theorem words_of_no_letters (none : a.letters = []) (n : Nat) : a.words n = [[]] := by
  have distinct : a.letters.Nodup := none ▸ List.nodup_nil
  refine (enumerates_words distinct n).unique ⟨fun w => ?_, by simp, by simp⟩
  rw [List.mem_singleton, Covers, none]
  constructor
  · rintro rfl
    exact ⟨Nat.zero_le n, fun _ member => (List.not_mem_nil member).elim⟩
  · rintro ⟨_, letters⟩
    exact List.eq_nil_iff_forall_not_mem.mpr fun x member => List.not_mem_nil (letters x member)

end Alphabet

/-! ### What is found -/

section
variable {α : Type} {test : α → Except Error Bool}

theorem firstWhere_cases {l : List α} (decides : ∀ x ∈ l, ∃ verdict, test x = .ok verdict) :
    (firstWhere test l = .ok none ∧ ∀ x ∈ l, test x = .ok false) ∨
      ∃ before x after, l = before ++ x :: after ∧ firstWhere test l = .ok (some x) ∧
        test x = .ok true ∧ ∀ y ∈ before, test y = .ok false := by
  induction l with
  | nil => exact .inl ⟨rfl, fun _ member => (List.not_mem_nil member).elim⟩
  | cons x rest ih =>
    obtain ⟨verdict, tested⟩ := decides x List.mem_cons_self
    have step : firstWhere test (x :: rest) =
        if verdict then .ok (some x) else firstWhere test rest := by
      rw [firstWhere, tested]
      rfl
    cases verdict with
    | true => exact .inr ⟨[], x, rest, rfl, step, tested, fun _ member => (List.not_mem_nil member).elim⟩
    | false =>
      rcases ih fun y member => decides y (List.mem_cons_of_mem x member) with
        ⟨found, none⟩ | ⟨before, y, after, split, found, passed, others⟩
      · exact .inl ⟨step.trans found, List.forall_mem_cons.mpr ⟨tested, none⟩⟩
      · refine .inr ⟨x :: before, y, after, ?_, step.trans found, passed,
          List.forall_mem_cons.mpr ⟨tested, others⟩⟩
        rw [split, List.cons_append]

end

namespace Alphabet

/-- The first word up to a length on which there is no agreement. -/
structure FirstDisagreement (a : Alphabet) (n : Nat) (agree : Word → Prop) (w : Word) : Prop where
  covered : a.Covers n w
  disagree : ¬ agree w
  earlier : ∀ v, a.Covers n v → a.Precedes v w → agree v

theorem Enumerates.firstDisagreement_iff {a : Alphabet} {n : Nat} {agree : Word → Prop}
    {before after : List Word} {w : Word} (h : a.Enumerates n (before ++ w :: after))
    (disagree : ¬ agree w) (others : ∀ v ∈ before, agree v) (u : Word) :
    a.FirstDisagreement n agree u ↔ u = w := by
  obtain ⟨_, later, across⟩ := List.pairwise_append.mp h.ordered
  have there : w ∈ before ++ w :: after := List.mem_append_right _ List.mem_cons_self
  constructor
  · intro first
    rcases List.mem_append.mp ((h.complete u).mpr first.covered) with earlier | rest
    · exact (first.disagree (others u earlier)).elim
    · rcases List.mem_cons.mp rest with same | follows
      · exact same
      · have precedes := (List.pairwise_cons.mp later).1 u follows
        exact (disagree (first.earlier w ((h.complete w).mp there) precedes)).elim
  · rintro rfl
    refine ⟨(h.complete u).mp there, disagree, fun v covered precedes => ?_⟩
    rcases List.mem_append.mp ((h.complete v).mpr covered) with earlier | rest
    · exact others v earlier
    · rcases List.mem_cons.mp rest with rfl | follows
      · exact (precedes.asymm precedes).elim
      · exact (precedes.asymm ((List.pairwise_cons.mp later).1 v follows)).elim

/-- The check passes if there is agreement on all words up to a length; otherwise it fails, and its
message shows the first word on which there is none, label by label between quotation marks. -/
structure Exact (a : Alphabet) (n : Nat) (agree : Word → Prop) (text : String)
    (finding : Word → Finding) (check : Except Error (Option Finding)) : Prop where
  passes : check = .ok none ↔ ∀ w, a.Covers n w → agree w
  fails : ∀ f, check = .ok (some f) ↔
    ∃ w, a.FirstDisagreement n agree w ∧ f = finding w ∧ f.message.toList =
      text.toList ++ ("\"".toList ++ (w.flatMap fun x => x.label.toList) ++ "\"".toList)
  decided : ∃ found, check = .ok found

theorem Enumerates.exact_firstWhere {a : Alphabet} {n : Nat} {ws : List Word}
    {agree : Word → Prop} {test : Word → Except Error Bool} {text : String}
    {finding : Word → Finding} (h : a.Enumerates n ws)
    (message : ∀ w, (finding w).message = text ++ w.shown)
    (decides : ∀ w, ∃ verdict, test w = .ok verdict ∧ (verdict = false ↔ agree w)) :
    a.Exact n agree text finding (do
      let word ← firstWhere test ws
      return word.map finding) := by
  have verdict {w : Word} {b : Bool} (tested : test w = .ok b) : b = false ↔ agree w := by
    obtain ⟨c, ran, tells⟩ := decides w
    obtain rfl := Except.ok.inj (tested.symm.trans ran)
    exact tells
  rcases firstWhere_cases fun w (_ : w ∈ ws) => (decides w).imp fun _ => And.left with
    ⟨found, none⟩ | ⟨before, w, after, rfl, found, passed, others⟩
  · have agree : ∀ w, a.Covers n w → agree w := fun w covered =>
      (verdict (none w ((h.complete w).mpr covered))).mp rfl
    rw [found]
    exact ⟨iff_of_true rfl agree, fun f => iff_of_false (by rintro ⟨⟩) fun ⟨w, first, _⟩ =>
      first.disagree (agree w first.covered), _, rfl⟩
  · have disagree : ¬ agree w := fun same => by cases (verdict passed).mpr same
    have first := h.firstDisagreement_iff disagree fun v member => (verdict (others v member)).mp rfl
    rw [found]
    refine ⟨iff_of_false (by rintro ⟨⟩) fun all => disagree (all w ((first w).mpr rfl).covered),
      fun f => ?_, _, rfl⟩
    constructor
    · intro reported
      obtain rfl : finding w = f := Option.some.inj (Except.ok.inj reported)
      refine ⟨w, (first w).mpr rfl, rfl, ?_⟩
      rw [message, String.toList_append, Word.toList_shown]
    · rintro ⟨u, least, rfl, _⟩
      rw [(first u).mp least]
      rfl

end Alphabet

theorem Nfa.WellFormed.accepts_succeeds {a : Nfa} (h : a.WellFormed) (w : Word) :
    ∃ verdict, a.accepts w = .ok verdict := by
  obtain ⟨last, read, _⟩ := h.configuration_reads w
  refine ⟨last.any a.isAccepting, ?_⟩
  rw [accepts, read]
  rfl

/-- Both automata accept the word, or neither does. -/
def Nfa.AgreeOn (a b : Nfa) (w : Word) : Prop :=
  ∃ verdict, a.accepts w = .ok verdict ∧ b.accepts w = .ok verdict

theorem Nfa.WellFormed.exact_checkEquivalent {a b : Nfa} (ha : a.WellFormed) (hb : b.WellFormed)
    (n : Nat) : a.alphabet.Exact n (a.AgreeOn b) "automata disagree on " .disagree
      (a.checkEquivalent b n) := by
  refine (Alphabet.enumerates_words ha.letters n).exact_firstWhere (fun _ => rfl) fun w => ?_
  obtain ⟨verdict, ran⟩ := ha.accepts_succeeds w
  obtain ⟨verdict', ran'⟩ := hb.accepts_succeeds w
  refine ⟨verdict != verdict', by rw [ran, ran']; rfl, ?_⟩
  rw [AgreeOn, ran, ran', bne_eq_false_iff_eq]
  constructor
  · rintro rfl
    exact ⟨verdict, rfl, rfl⟩
  · rintro ⟨_, same, same'⟩
    exact (Except.ok.inj same).trans (Except.ok.inj same').symm

theorem Nfa.WellFormed.exact_checkEquivalent_dfa {a : Nfa} (ha : a.WellFormed) (d : Dfa) (n : Nat) :
    a.alphabet.Exact n (fun w => a.accepts w = .ok (d.accepts w))
      "determinized automaton disagrees on " .determinizedDisagrees (Dfa.checkEquivalent a d n) := by
  refine (Alphabet.enumerates_words ha.letters n).exact_firstWhere (fun _ => rfl) fun w => ?_
  obtain ⟨verdict, ran⟩ := ha.accepts_succeeds w
  refine ⟨verdict != d.accepts w, by rw [ran]; rfl, ?_⟩
  rw [ran, Except.ok.injEq, bne_eq_false_iff_eq]

/-- The words up to a length are all there, and both checks that go through them are exact. -/
theorem Nfa.Reachable.bounded_checks_exact {a b : Nfa} (ha : Reachable a) (hb : Reachable b)
    (d : Dfa) {alphabet : Alphabet} (distinct : alphabet.letters.Nodup) (n : Nat) :
    alphabet.Enumerates n (alphabet.words n) ∧
    (alphabet.letters = [] → alphabet.words n = [[]]) ∧
    a.alphabet.Exact n (a.AgreeOn b) "automata disagree on " .disagree (a.checkEquivalent b n) ∧
    a.alphabet.Exact n (fun w => a.accepts w = .ok (d.accepts w))
      "determinized automaton disagrees on " .determinizedDisagrees (Dfa.checkEquivalent a d n) :=
  ⟨Alphabet.enumerates_words distinct n, fun none => Alphabet.words_of_no_letters none n,
    ha.wellFormed.exact_checkEquivalent hb.wellFormed n, ha.wellFormed.exact_checkEquivalent_dfa d n⟩

theorem Nfa.bounded_checks_exact_fork :
    (run {} fork).alphabet.Enumerates 2 ((run {} fork).alphabet.words 2) ∧
    (run {} fork).alphabet.FirstDisagreement 2 ((run {} fork).AgreeOn {}) [.letter "x"] := by
  have found : (run {} fork).checkEquivalent {} 2 = .ok (some (.disagree [.letter "x"])) := by cbv
  obtain ⟨enumerates, _, checked, _⟩ := Reachable.bounded_checks_exact ⟨fork, by decide, rfl⟩
    ⟨[], by decide, rfl⟩ {} (by decide : (run {} fork).alphabet.letters.Nodup) 2
  obtain ⟨w, first, same, _⟩ := (checked.fails _).mp found
  exact ⟨enumerates, Finding.disagree.inj same ▸ first⟩

end FiniteAutomata
