import FiniteAutomata.Chance
import FiniteAutomata.Proofs.Complete
import FiniteAutomata.Proofs.Reachable
import Mathlib

/-!
Automata drawn at densities that leave nothing to chance. Every transition is put in or none is, for
letters and for the empty word; so it is known what is drawn, what elimination makes of it, and how
many sets determinization meets.
-/

namespace FiniteAutomata

/-! ### Densities -/

/-- The density decides every draw. One or more puts everything in; zero or less, or no number at all,
puts nothing in. -/
inductive Density.Decides : Density → Bool → Prop
  | all {value : Rat} (full : 1 ≤ value) : Decides (finite value) true
  | none {value : Rat} (empty : value ≤ 0) : Decides (finite value) false
  | infinite (positive : Bool) : Decides (infinite positive) positive
  | undefined : Decides undefined false

theorem Density.Decides.covers {density : Density} {d : Bool} {level : Rat} (h : density.Decides d)
    (nonneg : 0 ≤ level) (lt_one : level < 1) : density.covers level = d := by
  cases h with
  | all full => exact decide_eq_true (lt_of_lt_of_le lt_one full)
  | none empty => exact decide_eq_false (not_lt.mpr (empty.trans nonneg))
  | infinite => rfl
  | undefined => rfl

namespace Chance

variable {c : Chance} {n k : Nat} {density epsilonDensity : Density} {d e : Bool} {t : Transition}

theorem draws_eq (c : Chance) (hd : density.Decides d) (he : epsilonDensity.Decides e)
    (t : Transition) : c.draws density epsilonDensity t = if t.isEpsilon then e else d := by
  unfold draws
  split
  · exact he.covers (c.level_nonneg t) (c.level_lt_one t)
  · exact hd.covers (c.level_nonneg t) (c.level_lt_one t)

/-! ### Letters and candidates -/

theorem epsilon_notMem_letters (k : Nat) : .epsilon ∉ letters k := by
  simp [letters]

theorem length_letters (k : Nat) : (letters k).length = k := by
  simp [letters]

theorem letters_eq_take (few : k ≤ maxLetters) : letters k = (letters maxLetters).take k := by
  rw [letters, letters, ← List.map_take, List.take_range, Nat.min_eq_left few]

theorem nodup_letters (few : k ≤ maxLetters) : (letters k).Nodup := by
  have all : (letters maxLetters).Nodup := by decide
  rw [letters_eq_take few]
  exact (List.take_sublist k _).nodup all

theorem letters_eq (few : k ≤ maxLetters) : letters k =
    ("abcdefghijklmnopqrstuvwxyz".toList.take k).map fun l => .letter (String.singleton l) := by
  have all : letters maxLetters =
      "abcdefghijklmnopqrstuvwxyz".toList.map fun l => .letter (String.singleton l) := by decide
  rw [letters_eq_take few, all, List.map_take]

theorem mem_candidates : t ∈ candidates n k ↔ t.source < n ∧ t.target < n ∧
    (t.symbol ∈ letters k ∨ t.symbol = .epsilon ∧ t.source ≠ t.target) := by
  obtain ⟨p, x, q⟩ := t
  simp only [candidates, List.mem_flatMap, List.mem_range, List.mem_append, List.mem_map]
  constructor
  · rintro ⟨p', hp, q', hq, ⟨y, member, same⟩ | member⟩
    · obtain ⟨rfl, rfl, rfl⟩ := Transition.mk.inj same
      exact ⟨hp, hq, .inl member⟩
    · split at member
      · exact (List.not_mem_nil member).elim
      · rename_i differ
        obtain ⟨rfl, rfl, rfl⟩ := Transition.mk.inj (List.mem_singleton.mp member)
        exact ⟨hp, hq, .inr ⟨rfl, differ⟩⟩
  · rintro ⟨hp, hq, member | ⟨rfl, differ⟩⟩
    · exact ⟨p, hp, q, hq, .inl ⟨x, member, rfl⟩⟩
    · refine ⟨p, hp, q, hq, .inr ?_⟩
      rw [if_neg differ]
      exact List.mem_singleton_self _

/-- The letters that every pair of states is drawn on. -/
def drawnLetters (k : Nat) (d : Bool) : List Symbol := if d then letters k else []

theorem mem_drawn (c : Chance) (hd : density.Decides d) (he : epsilonDensity.Decides e) :
    t ∈ (candidates n k).filter (c.draws density epsilonDensity) ↔
      t ∈ Transition.across n (drawnLetters k d) ∨ e ∧ t ∈ Transition.between n := by
  rw [List.mem_filter, mem_candidates, c.draws_eq hd he, Transition.mem_across,
    Transition.mem_between, drawnLetters]
  -- The empty word is none of the letters, so each kind of draw decides about its own candidates.
  by_cases epsilon : t.symbol = .epsilon
  · have drawn : t.isEpsilon := Symbol.isEpsilon_iff.mpr epsilon
    cases d <;> simp [drawn, epsilon, epsilon_notMem_letters] <;> tauto
  · have drawn : ¬ t.isEpsilon := fun h => epsilon (Symbol.isEpsilon_iff.mp h)
    cases d <;> simp [drawn, epsilon]
    tauto

end Chance

/-! ### Building the automaton -/

namespace Nfa

variable {a : Nfa}

theorem addSymbols_succeeds {xs : List Symbol} (h : WellFormed a) (proper : .epsilon ∉ xs)
    (fresh : (a.alphabet.letters ++ xs).Nodup) :
    addSymbols xs a = ⟨{ a with alphabet := ⟨a.alphabet.letters ++ xs⟩ }, [], .ok ()⟩ ∧
      WellFormed { a with alphabet := ⟨a.alphabet.letters ++ xs⟩ } := by
  induction xs generalizing a with
  | nil =>
    rw [List.append_nil]
    exact ⟨rfl, h⟩
  | cons x rest ih =>
    have letter : x ≠ .epsilon := fun same => proper (same ▸ List.mem_cons_self)
    have unknown : x ∉ a.alphabet.letters := fun known => not_nodup_of_again known fresh
    have learnt : a.alphabet.learn x = ⟨a.alphabet.letters ++ [x]⟩ := by
      rw [Alphabet.learn, if_neg (not_or.mpr ⟨letter, unknown⟩)]
    have ran := addSymbol_letter (a := a) letter
    have next := h.addSymbol x
    rw [ran, learnt] at next
    rw [learnt] at ran
    rw [List.append_cons] at fresh ⊢
    obtain ⟨later, final⟩ := ih next (fun member => proper (List.mem_cons_of_mem x member)) fresh
    exact ⟨Edit.bind_of_silent ran later, final⟩

theorem addStates_succeeds {ss : List (String × Kind)} (h : WellFormed a)
    (fresh : (a.states.map State.name ++ ss.map Prod.fst).Nodup) :
    ∃ states, addStates ss a = ⟨{ a with states := states }, [], .ok ()⟩ ∧
      WellFormed { a with states := states } ∧
      states.map (fun q => (q.name, q.kind)) = a.states.map (fun q => (q.name, q.kind)) ++ ss := by
  induction ss generalizing a with
  | nil => exact ⟨a.states, rfl, h, (List.append_nil _).symm⟩
  | cons s rest ih =>
    obtain ⟨name, kind⟩ := s
    rw [List.map_cons] at fresh
    have free : name ∉ a.states.map State.name := fun taken => not_nodup_of_again taken fresh
    have ran := addState_free free kind
    rw [List.append_cons] at fresh
    obtain ⟨states, later, final, listed⟩ := ih (h.enlarged free kind) (by
      rw [enlarged, List.map_append]
      exact fresh)
    refine ⟨states, Edit.bind_of_silent ran later, final, ?_⟩
    rw [listed, enlarged, List.map_append, List.append_assoc]
    rfl

end Nfa

/-! ### What is drawn -/

namespace Chance

variable {c : Chance} {n k : Nat} {density epsilonDensity : Density} {d e : Bool} {a : Nfa}

/-- The states, letters and transitions that are drawn if the densities decide about letters and about
the empty word. -/
structure Fills (c : Chance) (n k : Nat) (d e : Bool) (a : Nfa) : Prop where
  states : a.states.map (fun q => (q.name, q.kind)) =
    (List.range n).map fun i => ("q" ++ toString i, .ofAccepting (c.accepting i))
  letters : a.alphabet.letters =
    ("abcdefghijklmnopqrstuvwxyz".toList.take k).map fun l => .letter (String.singleton l)
  transitions : ∀ t, t ∈ a.transitions ↔ t.source < n ∧ t.target < n ∧
    (d ∧ t.symbol ∈ a.alphabet.letters ∨ e ∧ t.symbol = .epsilon ∧ t.source ≠ t.target)
  distinct : a.transitions.Nodup
  count : a.transitions.length = d.toNat * n * n * k + e.toNat * n * (n - 1)

/-- The first state is initial, if there is one. -/
structure Gives (c : Chance) (n k : Nat) (d e : Bool) (a : Nfa) : Prop extends c.Fills n k d e a where
  wellFormed : a.WellFormed
  initial : a.initial.toList = if n = 0 then [] else [0]

theorem nodup_names (n : Nat) (kind : Nat → Kind) :
    (((List.range n).map fun i => ("q" ++ toString i, kind i)).map Prod.fst).Nodup := by
  rw [List.map_map]
  refine List.nodup_range.map fun i j same => ?_
  have same : "q" ++ toString i = "q" ++ toString j := same
  rw [String.append_right_inj] at same
  exact Nat.repr_inj.mp same

theorem length_drawnLetters (k : Nat) (d : Bool) : (drawnLetters k d).length = d.toNat * k := by
  cases d <;> simp [drawnLetters, length_letters]

theorem epsilon_notMem_drawnLetters (k : Nat) (d : Bool) : .epsilon ∉ drawnLetters k d := by
  cases d <;> simp [drawnLetters, epsilon_notMem_letters]

theorem nodup_drawnLetters (few : k ≤ maxLetters) (d : Bool) : (drawnLetters k d).Nodup := by
  cases d
  · exact List.nodup_nil
  · exact nodup_letters few

theorem length_drawn (few : k ≤ maxLetters) {ts : List Transition} (distinct : ts.Nodup)
    (drawn : ∀ t, t ∈ ts ↔
      t ∈ Transition.across n (drawnLetters k d) ∨ e ∧ t ∈ Transition.between n) :
    ts.length = d.toNat * n * n * k + e.toNat * n * (n - 1) := by
  have across := Transition.nodup_across (n := n) (nodup_drawnLetters few d)
  cases e with
  | false =>
    have perm : ts.Perm (Transition.across n (drawnLetters k d)) :=
      (List.perm_ext_iff_of_nodup distinct across).mpr fun t => by simp [drawn]
    rw [perm.length_eq, Transition.length_across, length_drawnLetters, Bool.toNat_false]
    ring
  | true =>
    have apart : (Transition.across n (drawnLetters k d) ++ Transition.between n).Nodup := by
      refine List.nodup_append.mpr ⟨across, Transition.nodup_between n, ?_⟩
      rintro t lettered u epsilon rfl
      refine epsilon_notMem_drawnLetters k d ?_
      rw [← (Transition.mem_between.mp epsilon).2.2.1]
      exact (Transition.mem_across.mp lettered).2.1
    have perm : ts.Perm (Transition.across n (drawnLetters k d) ++ Transition.between n) :=
      (List.perm_ext_iff_of_nodup distinct apart).mpr fun t => by simp [drawn]
    rw [perm.length_eq, List.length_append, Transition.length_across, length_drawnLetters,
      Transition.length_between, Bool.toNat_true]
    ring

theorem mem_drawnLetters {x : Symbol} : x ∈ drawnLetters k d ↔ d ∧ x ∈ letters k := by
  cases d <;> simp [drawnLetters]

theorem fills_includingAll (few : k ≤ maxLetters) {fresh : List Transition}
    (states : a.states.map (fun q => (q.name, q.kind)) =
      (List.range n).map fun i => ("q" ++ toString i, .ofAccepting (c.accepting i)))
    (known : a.alphabet.letters = letters k) (none : a.transitions = []) (distinct : fresh.Nodup)
    (drawn : ∀ t, t ∈ fresh ↔
      t ∈ Transition.across n (drawnLetters k d) ∨ e ∧ t ∈ Transition.between n) :
    c.Fills n k d e (a.includingAll fresh) := by
  have transitions : (a.includingAll fresh).transitions = fresh := by
    rw [Nfa.transitions_includingAll, none, List.nil_append]
  have alphabet : (a.includingAll fresh).alphabet = a.alphabet := by
    refine Nfa.alphabet_includingAll fun t member letter => ?_
    rw [known]
    rcases (drawn t).mp member with across | ⟨_, between⟩
    · exact (mem_drawnLetters.mp (Transition.mem_across.mp across).2.1).2
    · exact (letter (Transition.mem_between.mp between).2.2.1).elim
  constructor
  case states => exact (Nfa.map_of_bare (fun _ => rfl) (a.bare_includingAll fresh)).trans states
  case letters => rw [alphabet, known, letters_eq few]
  case transitions =>
    intro t
    rw [transitions, alphabet, known, drawn, Transition.mem_across, Transition.mem_between,
      mem_drawnLetters]
    tauto
  case distinct =>
    rw [transitions]
    exact distinct
  case count =>
    rw [transitions]
    exact length_drawn few distinct drawn

/-- The letters and the states come first. -/
theorem edit_peoples (c : Chance) (n : Nat) (few : k ≤ maxLetters) :
    ∃ b a, Nfa.addSymbols (letters k) {} = ⟨b, [], .ok ()⟩ ∧
      Nfa.addStates ((List.range n).map fun i =>
        ("q" ++ toString i, .ofAccepting (c.accepting i))) b = ⟨a, [], .ok ()⟩ ∧
      a.WellFormed ∧ a.states.map (fun q => (q.name, q.kind)) =
        ((List.range n).map fun i => ("q" ++ toString i, .ofAccepting (c.accepting i))) ∧
      a.alphabet.letters = letters k ∧ a.transitions = [] ∧ a.initial = ∅ := by
  obtain ⟨lettered, h⟩ := Nfa.addSymbols_succeeds Nfa.wellFormed_empty (epsilon_notMem_letters k)
    (nodup_letters few)
  obtain ⟨states, peopled, h, listed⟩ := Nfa.addStates_succeeds h
    (nodup_names n fun i => .ofAccepting (c.accepting i))
  exact ⟨_, _, lettered, peopled, h, listed, rfl, rfl, rfl⟩

/-- The initial state comes last. -/
theorem start_gives (filled : c.Fills n k d e a) (h : a.WellFormed) (idle : a.initial = ∅)
    (size : a.size = n) : ∃ b, start n a = ⟨b, [], .ok ()⟩ ∧ c.Gives n k d e b := by
  unfold start
  by_cases exist : 0 < n
  · have there : 0 < a.size := size.symm ▸ exist
    have started := Nfa.addInitial_of_lt there
    refine ⟨{ a with initial := a.initial.insert 0 }, ?_, ?_⟩
    · rw [if_pos exist]
      exact Edit.bind_of_silent started Edit.pure_apply
    · constructor
      case toFills =>
        exact ⟨filled.states, filled.letters, filled.transitions, filled.distinct, filled.count⟩
      case wellFormed => exact h.insert_initial there
      case initial =>
        rw [if_neg (Nat.ne_of_gt exist), idle]
        rfl
  · refine ⟨a, by rw [if_neg exist]; rfl, { filled with wellFormed := h, initial := ?_ }⟩
    rw [if_pos (Nat.eq_zero_of_not_pos exist), idle]
    rfl

theorem edit_gives (c : Chance) (n : Nat) (few : k ≤ maxLetters) (hd : density.Decides d)
    (he : epsilonDensity.Decides e) :
    ∃ a log, c.edit n k density epsilonDensity {} =
      ⟨a, log ++ [.drew a.size a.transitions.length], .ok ()⟩ ∧ c.Gives n k d e a := by
  obtain ⟨_, b, lettered, peopled, h, listed, known, none, idle⟩ := c.edit_peoples n few
  have size : b.size = n := by simpa [Nfa.size] using congrArg List.length listed
  have ends : ∀ t ∈ (candidates n k).filter (c.draws density epsilonDensity),
      t.source < b.size ∧ t.target < b.size := fun t member => by
    obtain ⟨source, target, _⟩ := mem_candidates.mp (List.mem_filter.mp member).1
    rw [size]
    exact ⟨source, target⟩
  obtain ⟨fresh, added, h, drawn⟩ := Nfa.addMissing_succeeds h ends
  have drawn : ∀ t, t ∈ fresh ↔
      t ∈ Transition.across n (drawnLetters k d) ∨ e ∧ t ∈ Transition.between n := fun t => by
    rw [drawn, c.mem_drawn hd he, none]
    exact and_iff_left List.not_mem_nil
  have distinct : fresh.Nodup := by
    have distinct := h.distinct
    rwa [Nfa.transitions_includingAll, none, List.nil_append] at distinct
  have filled := c.fills_includingAll few listed known none distinct drawn
  obtain ⟨a, started, gives⟩ := start_gives filled h
    ((b.initial_includingAll fresh).trans idle)
    ((Nfa.size_of_bare (b.bare_includingAll fresh)).trans size)
  exact ⟨a, _, Edit.bind_of_silent lettered (Edit.bind_of_silent peopled (Edit.bind_of_ok added
    (Edit.bind_of_silent started (Edit.bind_of_silent Edit.get_apply rfl)))), gives⟩

theorem automaton_of_many (c : Chance) (n : Nat) (many : maxLetters < k) :
    c.automaton n k density epsilonDensity = .error (.tooManyLetters k) := by
  rw [automaton, draw, if_pos many]
  rfl

theorem automaton_gives (c : Chance) (n : Nat) (few : k ≤ maxLetters) (hd : density.Decides d)
    (he : epsilonDensity.Decides e) :
    ∃ a, c.automaton n k density epsilonDensity = .ok a ∧ c.Gives n k d e a := by
  obtain ⟨a, log, ran, gives⟩ := c.edit_gives n few hd he
  refine ⟨a, ?_, gives⟩
  rw [automaton, draw, if_neg (Nat.not_lt.mpr few), ran]
  rfl

/-! ### What becomes of it -/

namespace Gives

variable {b : Nfa} {p q : StateId}

theorem size (h : c.Gives n k d e a) : a.size = n := by
  simpa [Nfa.size] using congrArg List.length h.states

theorem letters_eq (h : c.Gives n k d e a) (few : k ≤ maxLetters) :
    a.alphabet.letters = Chance.letters k := by
  rw [h.letters, Chance.letters_eq few]

theorem mem_initial (h : c.Gives n k d e a) : q ∈ a.initial ↔ q = 0 ∧ q < n := by
  rw [StateSet.mem_def, h.initial]
  split
  · rename_i empty
    exact iff_of_false List.not_mem_nil fun there => Nat.not_lt_zero q (empty ▸ there.2)
  · rename_i filled
    rw [List.mem_singleton]
    exact ⟨fun same => ⟨same, same ▸ Nat.pos_of_ne_zero filled⟩, And.left⟩

/-- Epsilon transitions lead everywhere or nowhere. -/
theorem epsilonPath_iff (h : c.Gives n k d e a) (few : k ≤ maxLetters) (exist : p < n) :
    a.EpsilonPath p q ↔ q < n ∧ (p = q ∨ e) := by
  have step {p q : StateId} : a.EpsilonStep p q ↔ p < n ∧ q < n ∧ e ∧ p ≠ q := by
    have none : .epsilon ∉ a.alphabet.letters := h.letters_eq few ▸ epsilon_notMem_letters k
    unfold Nfa.EpsilonStep
    rw [h.transitions]
    simp [none]
  constructor
  · intro path
    refine ⟨h.size ▸ h.wellFormed.epsilonPath_lt (h.size.symm ▸ exist) path, ?_⟩
    rcases Relation.reflTransGen_iff_eq_or_transGen.mp path with same | steps
    · exact .inl same.symm
    · obtain ⟨r, first, _⟩ := Relation.TransGen.head'_iff.mp steps
      exact .inr (step.mp first).2.2.1
  · rintro ⟨there, same | full⟩
    · rw [same]
    · by_cases same : p = q
      · rw [same]
      · exact .single (step.mpr ⟨exist, there, full, same⟩)

theorem size_eliminated (h : c.Gives n k d e a) (g : a.Eliminates b) : b.size = n :=
  (Nfa.size_of_roster g.roster).trans h.size

/-- What is left is complete on the letters that were drawn; ways over epsilon transitions lead
nowhere new. -/
theorem completeOn (h : c.Gives n k d e a) (few : k ≤ maxLetters) (g : a.Eliminates b) :
    b.CompleteOn (drawnLetters k d) := by
  rintro ⟨p, x, q⟩
  rw [g.transitions, h.size_eliminated g, mem_drawnLetters, ← h.letters_eq few]
  constructor
  · rintro ⟨letter, r, listed, path⟩
    obtain ⟨source, target, ⟨full, known⟩ | ⟨_, epsilon, _⟩⟩ := (h.transitions _).mp listed
    · exact ⟨source, ⟨full, known⟩, ((h.epsilonPath_iff few target).mp path).1⟩
    · exact (letter epsilon).elim
  · rintro ⟨source, ⟨full, known⟩, target⟩
    refine ⟨?_, q, (h.transitions _).mpr ⟨source, target, .inl ⟨full, known⟩⟩, .refl⟩
    rintro rfl
    exact h.wellFormed.proper known

theorem mem_initial_eliminated (h : c.Gives n k d e a) (few : k ≤ maxLetters)
    (g : a.Eliminates b) : q ∈ b.initial ↔ q < n ∧ (q = 0 ∨ e) := by
  rw [g.initial]
  constructor
  · rintro ⟨p, start, path⟩
    obtain ⟨rfl, exist⟩ := h.mem_initial.mp start
    rw [eq_comm (a := q)]
    exact (h.epsilonPath_iff few exist).mp path
  · rintro ⟨there, first⟩
    have exist : 0 < n := Nat.zero_lt_of_lt there
    rw [eq_comm (a := q)] at first
    exact ⟨0, h.mem_initial.mpr ⟨rfl, exist⟩, (h.epsilonPath_iff few exist).mpr ⟨there, first⟩⟩

/-- All states are initial if epsilon transitions lead there, or if there are no others. -/
theorem initial_eq_everything_iff (h : c.Gives n k d e a) (few : k ≤ maxLetters)
    (g : a.Eliminates b) : b.initial = b.everything ↔ e ∨ n < 2 := by
  have size := h.size_eliminated g
  constructor
  · intro same
    by_contra differ
    rw [not_or, Nat.not_lt] at differ
    have second : 1 ∈ b.initial := by
      rw [same, Nfa.mem_everything, size]
      exact differ.2
    rcases ((h.mem_initial_eliminated few g).mp second).2 with absurd | full
    · cases absurd
    · exact differ.1 full
  · intro same
    refine StateSet.ext fun q => ?_
    rw [h.mem_initial_eliminated few g, Nfa.mem_everything, size]
    refine and_iff_left_of_imp fun there => ?_
    rcases same with full | single
    · exact .inr full
    · exact .inl (Nat.lt_one_iff.mp (Nat.lt_of_lt_of_le there (Nat.le_of_lt_succ single)))

/-- Letters lead to a second set if they lead from one of two states or more to all of them. -/
theorem second_set_iff (h : c.Gives n k d e a) (few : k ≤ maxLetters) (g : a.Eliminates b) :
    (drawnLetters k d ≠ [] ∧ b.initial ≠ ∅ ∧ b.initial ≠ b.everything) ↔
      d ∧ ¬ e ∧ 1 ≤ k ∧ 2 ≤ n := by
  have lettered : drawnLetters k d ≠ [] ↔ d ∧ 1 ≤ k := by
    rw [← List.length_pos_iff, length_drawnLetters]
    cases d <;> simp [Nat.pos_iff_ne_zero, Nat.one_le_iff_ne_zero]
  have started : 2 ≤ n → b.initial ≠ ∅ := by
    intro more empty
    have first : 0 ∈ b.initial :=
      (h.mem_initial_eliminated few g).mpr ⟨Nat.zero_lt_of_lt more, .inl rfl⟩
    rw [empty] at first
    exact StateSet.not_mem_empty 0 first
  rw [lettered, Ne.eq_def b.initial b.everything, h.initial_eq_everything_iff few g, not_or,
    Nat.not_lt]
  tauto

/-- Elimination leaves the letters, and determinization meets one set or two. -/
theorem reduces (h : c.Gives n k d e a) (few : k ≤ maxLetters) :
    ∃ b log s log', Nfa.eliminateEpsilons a = ⟨b, log, .ok ()⟩ ∧
      b.transitions.length = d.toNat * n * n * k ∧ b.determinize = ⟨s, log', .ok ()⟩ ∧
      s.size = if d ∧ ¬ e ∧ 1 ≤ k ∧ 2 ≤ n then 2 else 1 := by
  obtain ⟨b, log, eliminated, wellFormed, g⟩ := h.wellFormed.eliminateEpsilons
  have complete := h.completeOn few g
  obtain ⟨s, log', ran, determinizes⟩ :=
    Dfa.determinize_succeeds wellFormed.bounded g.isEpsilonFree
  refine ⟨b, log, s, log', eliminated, ?_, ran, ?_⟩
  · rw [complete.length_eq wellFormed (nodup_drawnLetters few d), h.size_eliminated g,
      length_drawnLetters]
    ring
  · rw [complete.size_determinized wellFormed g.isEpsilonFree determinizes]
    simp only [h.second_set_iff few g]

end Gives

/-- What densities that leave nothing to chance lead to has a closed form, from drawing to
determinization. Only the kinds of the states are left to be drawn, and they make no difference. -/
theorem automaton_of_decided (c : Chance) (n k : Nat) (hd : density.Decides d)
    (he : epsilonDensity.Decides e) :
    (26 < k → c.automaton n k density epsilonDensity = .error (.tooManyLetters k)) ∧
      (k ≤ 26 → ∃ a b log s log', c.automaton n k density epsilonDensity = .ok a ∧
        c.Gives n k d e a ∧ Nfa.eliminateEpsilons a = ⟨b, log, .ok ()⟩ ∧
        b.transitions.length = d.toNat * n * n * k ∧ b.determinize = ⟨s, log', .ok ()⟩ ∧
        s.size = if d ∧ ¬ e ∧ 1 ≤ k ∧ 2 ≤ n then 2 else 1) := by
  refine ⟨c.automaton_of_many n, fun few => ?_⟩
  obtain ⟨a, drawn, gives⟩ := c.automaton_gives n few hd he
  obtain ⟨b, log, s, log', reduced⟩ := gives.reduces few
  exact ⟨a, b, log, s, log', drawn, gives, reduced⟩

/-- Two states and one letter: the initial state is told from both of them. -/
theorem automaton_of_decided_pair :
    ∃ a b log s log', (ofSeed 7).automaton 2 1 (.finite 1) .undefined = .ok a ∧
      (ofSeed 7).Gives 2 1 true false a ∧ Nfa.eliminateEpsilons a = ⟨b, log, .ok ()⟩ ∧
      b.transitions.length = 4 ∧ b.determinize = ⟨s, log', .ok ()⟩ ∧ s.size = 2 := by
  obtain ⟨a, b, log, s, log', drawn, gives, eliminated, count, ran, size⟩ :=
    (automaton_of_decided (ofSeed 7) 2 1 (.all le_rfl) .undefined).2 (by decide)
  exact ⟨a, b, log, s, log', drawn, gives, eliminated, count, ran, size.trans (by decide)⟩

end Chance
end FiniteAutomata
