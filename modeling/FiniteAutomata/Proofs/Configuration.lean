import FiniteAutomata.Nfa.Acceptance
import FiniteAutomata.Proofs.Reachable

/-!
The configurations of the simulation are closed under epsilon, and elimination reproduces them: a
word without the empty word leads both automata to the same configuration, which accepts in the one
if and only if it accepts in the other.
-/

namespace FiniteAutomata.Nfa

variable {a b : Nfa} {states : StateSet}

/-- A set of existing states that no epsilon path leaves. -/
structure Closed (a : Nfa) (states : StateSet) : Prop where
  exist : ∀ q ∈ states, q < a.size
  kept : ∀ {p q}, p ∈ states → a.EpsilonPath p q → q ∈ states

namespace WellFormed

theorem close_succeeds (h : WellFormed a) (exist : ∀ q ∈ states, q < a.size) :
    ∃ closure, a.close states = .ok closure ∧ a.Closed closure ∧
      ∀ q, q ∈ closure ↔ ∃ p ∈ states, a.EpsilonPath p q := by
  obtain ⟨s, found, seen⟩ := h.epsilonClosure_succeeds exist
  refine ⟨s.seen, ?_, ⟨fun q member => ?_, fun {p q} member path => ?_⟩, seen⟩
  · rw [close, found]
    rfl
  · obtain ⟨p, start, path⟩ := (seen q).mp member
    exact h.epsilonPath_lt (exist p start) path
  · obtain ⟨o, start, first⟩ := (seen p).mp member
    exact (seen q).mpr ⟨o, start, first.trans path⟩

theorem mem_move (h : WellFormed a) {x : Symbol} {q : StateId} :
    q ∈ a.move states x ↔ ∃ p ∈ states, ⟨p, x, q⟩ ∈ a.transitions := by
  unfold move
  simp only [StateSet.mem_ofList, List.mem_flatMap, List.mem_map, h.mem_outboundOn]
  constructor
  · intro found
    obtain ⟨p, member, ⟨source, symbol, target⟩, ⟨listed, rfl, rfl⟩, rfl⟩ := found
    exact ⟨source, member, listed⟩
  · intro found
    obtain ⟨p, member, listed⟩ := found
    exact ⟨p, member, _, ⟨listed, rfl, rfl⟩, rfl⟩

theorem move_lt (h : WellFormed a) (states : StateSet) (x : Symbol) :
    ∀ q ∈ a.move states x, q < a.size := by
  intro q member
  obtain ⟨p, _, listed⟩ := h.mem_move.mp member
  exact (h.ends _ listed).2

/-- Without epsilon transitions nothing is taken for free. -/
theorem close_of_epsilonFree (h : WellFormed a) (free : a.isEpsilonFree)
    (exist : ∀ q ∈ states, q < a.size) : a.close states = .ok states := by
  obtain ⟨closure, found, _, exact⟩ := h.close_succeeds exist
  have still : ∀ p q, ¬ a.EpsilonStep p q := by
    intro p q listed
    have letter := List.all_eq_true.mp free _ listed
    cases letter
  rw [found]
  refine congrArg Except.ok (StateSet.ext fun q => ?_)
  rw [exact]
  constructor
  · intro found
    obtain ⟨p, member, path⟩ := found
    rwa [(Relation.reflTransGen_iff_eq (still p)).mp path]
  · exact fun member => ⟨q, member, .refl⟩

end WellFormed

/-! ### Elimination reproduces configurations -/

namespace Eliminates

theorem isEpsilonFree (e : Eliminates a b) : b.isEpsilonFree := by
  refine List.all_eq_true.mpr fun ⟨p, x, q⟩ listed => ?_
  obtain ⟨letter, _⟩ := (e.transitions p x q).mp listed
  cases x with
  | epsilon => exact absurd rfl letter
  | letter _ => rfl

/-- A letter is read in one step where it was read before and an epsilon path was taken. -/
theorem mem_move (e : Eliminates a b) (ha : WellFormed a) (hb : WellFormed b) {x : Symbol}
    (letter : x ≠ .epsilon) {q : StateId} :
    q ∈ b.move states x ↔ ∃ p ∈ a.move states x, a.EpsilonPath p q := by
  rw [hb.mem_move]
  simp only [e.transitions, ha.mem_move]
  constructor
  · intro found
    obtain ⟨p, member, _, r, listed, path⟩ := found
    exact ⟨r, ⟨p, member, listed⟩, path⟩
  · intro found
    obtain ⟨r, ⟨p, member, listed⟩, path⟩ := found
    exact ⟨p, member, letter, r, listed, path⟩

theorem readFrom (e : Eliminates a b) (ha : WellFormed a) (hb : WellFormed b) {w : Word}
    (letters : .epsilon ∉ w) (closed : a.Closed states) :
    ∃ last, a.readFrom states w = .ok last ∧ b.readFrom states w = .ok last ∧ a.Closed last := by
  -- Both read from the same set: elimination has taken the epsilon steps of the next set in advance.
  induction w generalizing states with
  | nil => exact ⟨states, rfl, rfl, closed⟩
  | cons x rest ih =>
    rw [List.mem_cons, not_or] at letters
    obtain ⟨letter, letters⟩ := letters
    obtain ⟨next, found, closed, exact⟩ := ha.close_succeeds (ha.move_lt states x)
    have same : b.move states x = next := by
      refine StateSet.ext fun q => ?_
      rw [exact, e.mem_move ha hb (Ne.symm letter)]
    have alike : b.close (b.move states x) = .ok next := by
      rw [hb.close_of_epsilonFree e.isEpsilonFree (hb.move_lt states x), same]
    obtain ⟨last, read, read', closed⟩ := ih letters closed
    refine ⟨last, ?_, ?_, closed⟩
    · rw [Nfa.readFrom, found]
      exact read
    · rw [Nfa.readFrom, alike]
      exact read'

theorem configuration (e : Eliminates a b) (ha : WellFormed a) (hb : WellFormed b) {w : Word}
    (letters : .epsilon ∉ w) :
    ∃ last, a.configuration w = .ok last ∧ b.configuration w = .ok last ∧ a.Closed last := by
  obtain ⟨start, found, closed, exact⟩ := ha.close_succeeds ha.starts
  have same : b.initial = start := by
    refine StateSet.ext fun q => ?_
    rw [exact, e.initial]
  have alike : b.close b.initial = .ok start := by
    rw [hb.close_of_epsilonFree e.isEpsilonFree hb.starts, same]
  obtain ⟨last, read, read', closed⟩ := e.readFrom ha hb letters closed
  refine ⟨last, ?_, ?_, closed⟩
  · rw [Nfa.configuration, found]
    exact read
  · rw [Nfa.configuration, alike]
    exact read'

/-- Promotion does not change whether a closed set accepts. -/
theorem any_isAccepting (e : Eliminates a b) (closed : a.Closed states) :
    states.any b.isAccepting = states.any a.isAccepting := by
  rw [Bool.eq_iff_iff]
  unfold StateSet.any
  simp only [List.any_eq_true]
  constructor
  · intro found
    obtain ⟨q, member, accepts⟩ := found
    obtain ⟨f, final, path⟩ := (e.accepting q).mp accepts
    exact ⟨f, closed.kept member path, final⟩
  · intro found
    obtain ⟨f, member, final⟩ := found
    exact ⟨f, member, (e.accepting f).mpr ⟨f, final, .refl⟩⟩

end Eliminates

/-- Elimination preserves the language. -/
theorem Reachable.accepts_eliminateEpsilons (h : Reachable a) :
    ∃ b log, Nfa.eliminateEpsilons a = ⟨b, log, .ok ()⟩ ∧ ∀ w : Word, .epsilon ∉ w →
      ∃ verdict, a.accepts w = .ok verdict ∧ b.accepts w = .ok verdict := by
  obtain ⟨b, log, ran, wellFormed, e⟩ := h.wellFormed.eliminateEpsilons
  refine ⟨b, log, ran, fun w letters => ?_⟩
  obtain ⟨last, before, after, closed⟩ := e.configuration h.wellFormed wellFormed letters
  refine ⟨last.any a.isAccepting, ?_, ?_⟩
  · rw [accepts, before]
    rfl
  · rw [accepts, after, ← e.any_isAccepting closed]
    rfl

theorem accepts_eliminateEpsilons_detour :
    ∃ b log, eliminateEpsilons (run {} detour) = ⟨b, log, .ok ()⟩ ∧ ∀ w : Word, .epsilon ∉ w →
      ∃ verdict, (run {} detour).accepts w = .ok verdict ∧ b.accepts w = .ok verdict :=
  Reachable.accepts_eliminateEpsilons ⟨detour, by decide, rfl⟩

end FiniteAutomata.Nfa
