import FiniteAutomata.Proofs.Configuration

/-!
Acceptance by paths. A path follows listed transitions, and the symbols on it spell every word that
they become when some of the empty words among them are left out. The simulation accepts a word if
and only if a path from an initial to an accepting state spells it.
-/

namespace FiniteAutomata

/-- The second word is the first one without some of its epsilons. -/
inductive Word.Spells : Word → Word → Prop
  | nil : Spells [] []
  | keep {v w : Word} (x : Symbol) : Spells v w → Spells (x :: v) (x :: w)
  | skip {v w : Word} : Spells v w → Spells (.epsilon :: v) w

/-- Where no epsilon is to be read, all of them are left out. -/
theorem Word.spells_iff_filter {v w : Word} (letters : .epsilon ∉ w) :
    Spells v w ↔ v.filter (!·.isEpsilon) = w := by
  constructor
  · intro spells
    induction spells with
    | nil => rfl
    | keep x _ ih =>
      rw [List.mem_cons, not_or] at letters
      have letter : !x.isEpsilon := by
        cases x with
        | epsilon => exact absurd rfl letters.1
        | letter _ => rfl
      rw [List.filter_cons_of_pos (by simpa using letter), ih letters.2]
    | skip _ ih =>
      rw [List.filter_cons_of_neg (by simp [Symbol.isEpsilon])]
      exact ih letters
  · rintro rfl
    clear letters
    induction v with
    | nil => exact .nil
    | cons x rest ih =>
      cases x with
      | epsilon => exact .skip ih
      | letter l => exact .keep (.letter l) ih

namespace Nfa

/-- A path from one state to another. -/
inductive Path (a : Nfa) : StateId → List Transition → StateId → Prop
  | nil (q : StateId) : Path a q [] q
  | cons {t : Transition} {ts : List Transition} {q : StateId} : t ∈ a.transitions →
      Path a t.target ts q → Path a t.source (t :: ts) q

/-- Some path from one state to another spells the word. -/
def Reads (a : Nfa) (p : StateId) (w : Word) (q : StateId) : Prop :=
  ∃ ts, a.Path p ts q ∧ Word.Spells (ts.map Transition.symbol) w

variable {a : Nfa} {states : StateSet} {o p q : StateId} {x : Symbol} {w : Word}

namespace Reads

theorem refl (q : StateId) : a.Reads q [] q := ⟨[], .nil q, .nil⟩

theorem cons (listed : ⟨p, x, o⟩ ∈ a.transitions) (later : a.Reads o w q) :
    a.Reads p (x :: w) q := by
  obtain ⟨ts, path, spells⟩ := later
  exact ⟨⟨p, x, o⟩ :: ts, .cons listed path, .keep x spells⟩

theorem after_step (step : a.EpsilonStep p o) (later : a.Reads o w q) : a.Reads p w q := by
  obtain ⟨ts, path, spells⟩ := later
  exact ⟨⟨p, .epsilon, o⟩ :: ts, .cons step path, .skip spells⟩

theorem after_path (first : a.EpsilonPath p o) (later : a.Reads o w q) : a.Reads p w q := by
  induction first using Relation.ReflTransGen.head_induction_on with
  | refl => exact later
  | head step _ ih => exact ih.after_step step

/-- What a path reads first, after the epsilons that it leaves out. -/
theorem cases_word (reads : a.Reads p w q) :
    w = [] ∧ a.EpsilonPath p q ∨
      ∃ x rest o r, w = x :: rest ∧ a.EpsilonPath p o ∧ ⟨o, x, r⟩ ∈ a.transitions ∧
        a.Reads r rest q := by
  obtain ⟨ts, path, spells⟩ := reads
  induction path generalizing w with
  | nil q =>
    cases spells
    exact .inl ⟨rfl, .refl⟩
  | @cons t ts q listed path ih =>
    obtain ⟨source, symbol, target⟩ := t
    cases spells with
    | keep x spells => exact .inr ⟨symbol, _, source, target, rfl, .refl, listed, ts, path, spells⟩
    | skip spells =>
      have step : a.EpsilonStep source target := listed
      rcases ih spells with ⟨rfl, first⟩ | ⟨x, rest, o, r, rfl, first, next, later⟩
      · exact .inl ⟨rfl, .head step first⟩
      · exact .inr ⟨x, rest, o, r, rfl, .head step first, next, later⟩

end Reads

theorem reads_nil : a.Reads p [] q ↔ a.EpsilonPath p q := by
  constructor
  · intro reads
    rcases reads.cases_word with ⟨_, path⟩ | ⟨_, _, _, _, absurd, _⟩
    · exact path
    · cases absurd
  · intro path
    exact (Reads.refl q).after_path path

theorem reads_cons : a.Reads p (x :: w) q ↔
    ∃ o r, a.EpsilonPath p o ∧ ⟨o, x, r⟩ ∈ a.transitions ∧ a.Reads r w q := by
  constructor
  · intro reads
    rcases reads.cases_word with ⟨absurd, _⟩ | ⟨_, _, o, r, same, first, listed, later⟩
    · cases absurd
    · cases same
      exact ⟨o, r, first, listed, later⟩
  · intro found
    obtain ⟨o, r, first, listed, later⟩ := found
    exact (later.cons listed).after_path first

/-- From a closed set, the simulation arrives where paths lead that spell the word. -/
theorem WellFormed.readFrom_reads (h : WellFormed a) (closed : a.Closed states) (w : Word) :
    ∃ last, a.readFrom states w = .ok last ∧ ∀ q, q ∈ last ↔ ∃ p ∈ states, a.Reads p w q := by
  induction w generalizing states with
  | nil =>
    refine ⟨states, rfl, fun q => ?_⟩
    simp only [reads_nil]
    constructor
    · exact fun member => ⟨q, member, .refl⟩
    · intro found
      obtain ⟨p, member, path⟩ := found
      exact closed.kept member path
  | cons x rest ih =>
    obtain ⟨next, found, nextClosed, exact⟩ := h.close_succeeds (h.move_lt states x)
    obtain ⟨last, read, arrives⟩ := ih nextClosed
    refine ⟨last, ?_, fun q => ?_⟩
    · rw [readFrom, found]
      exact read
    · simp only [arrives, exact, h.mem_move, reads_cons]
      -- Epsilons before the symbol stay in the closed set, those after it are closed over next.
      constructor
      · intro found
        obtain ⟨r, ⟨o, ⟨p, member, listed⟩, path⟩, later⟩ := found
        exact ⟨p, member, p, o, .refl, listed, later.after_path path⟩
      · intro found
        obtain ⟨p, member, o, r, path, listed, later⟩ := found
        exact ⟨r, ⟨r, ⟨o, closed.kept member path, listed⟩, .refl⟩, later⟩

/-- Epsilons before the first symbol are closed over at the start. -/
theorem WellFormed.configuration_reads (h : WellFormed a) (w : Word) :
    ∃ last, a.configuration w = .ok last ∧ ∀ q, q ∈ last ↔ ∃ p ∈ a.initial, a.Reads p w q := by
  obtain ⟨start, found, closed, exact⟩ := h.close_succeeds h.starts
  obtain ⟨last, read, arrives⟩ := h.readFrom_reads closed w
  refine ⟨last, ?_, fun q => ?_⟩
  · rw [configuration, found]
    exact read
  · simp only [arrives, exact]
    constructor
    · intro found
      obtain ⟨o, ⟨p, initial, path⟩, reads⟩ := found
      exact ⟨p, initial, reads.after_path path⟩
    · intro found
      obtain ⟨p, initial, reads⟩ := found
      exact ⟨p, ⟨p, initial, .refl⟩, reads⟩

/-- A path from an initial to an accepting state. -/
def AcceptingPath (a : Nfa) (ts : List Transition) : Prop :=
  ∃ p q, p ∈ a.initial ∧ a.Path p ts q ∧ a.isAccepting q

/-- The simulation accepts what accepting paths spell. -/
theorem Reachable.accepts_iff_path (h : Reachable a) (w : Word) :
    ∃ verdict, a.accepts w = .ok verdict ∧
      (verdict ↔ ∃ ts, a.AcceptingPath ts ∧ Word.Spells (ts.map Transition.symbol) w) ∧
      (.epsilon ∉ w → (verdict ↔ ∃ ts, a.AcceptingPath ts ∧
        (ts.map Transition.symbol).filter (!·.isEpsilon) = w)) := by
  obtain ⟨last, read, arrives⟩ := h.wellFormed.configuration_reads w
  have spelled : last.any a.isAccepting ↔
      ∃ ts, a.AcceptingPath ts ∧ Word.Spells (ts.map Transition.symbol) w := by
    rw [StateSet.any, List.any_eq_true]
    constructor
    · intro found
      obtain ⟨q, member, accepts⟩ := found
      obtain ⟨p, initial, ts, path, spells⟩ := (arrives q).mp member
      exact ⟨ts, ⟨p, q, initial, path, accepts⟩, spells⟩
    · intro found
      obtain ⟨ts, ⟨p, q, initial, path, accepts⟩, spells⟩ := found
      exact ⟨q, (arrives q).mpr ⟨p, initial, ts, path, spells⟩, accepts⟩
  refine ⟨last.any a.isAccepting, ?_, spelled, fun letters => ?_⟩
  · rw [accepts, read]
    rfl
  · simp only [spelled, Word.spells_iff_filter letters]

theorem accepts_iff_path_detour :
    ∃ verdict, (run {} detour).accepts [.epsilon, .letter "x"] = .ok verdict ∧
      (verdict ↔ ∃ ts, (run {} detour).AcceptingPath ts ∧
        Word.Spells (ts.map Transition.symbol) [.epsilon, .letter "x"]) ∧
      (.epsilon ∉ [Symbol.epsilon, .letter "x"] → (verdict ↔ ∃ ts, (run {} detour).AcceptingPath ts ∧
        (ts.map Transition.symbol).filter (!·.isEpsilon) = [.epsilon, .letter "x"])) :=
  Reachable.accepts_iff_path ⟨detour, by decide, rfl⟩ _

end Nfa
end FiniteAutomata
