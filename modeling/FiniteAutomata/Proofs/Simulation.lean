import FiniteAutomata.Dfa.Acceptance
import FiniteAutomata.Proofs.Determinization

/-!
The subset automaton simulates the automaton it was built from, set for set. Following a word leads
to the state whose members are the configuration after that word, and gets stuck where that becomes
empty.
-/

namespace FiniteAutomata

theorem Nfa.WellFormed.readFrom_empty {a : Nfa} (h : a.WellFormed) (w : Word) :
    a.readFrom ∅ w = .ok ∅ := by
  induction w with
  | nil => rfl
  | cons x rest ih =>
    obtain ⟨next, found, _, exact⟩ := h.close_succeeds (h.move_lt ∅ x)
    have dry : next = ∅ := by
      refine StateSet.ext fun q => ?_
      rw [exact]
      constructor
      · intro found
        obtain ⟨p, member, _⟩ := found
        obtain ⟨o, none, _⟩ := h.mem_move.mp member
        exact (StateSet.not_mem_empty o none).elim
      · intro none
        exact (StateSet.not_mem_empty q none).elim
    rw [Nfa.readFrom, found, dry]
    exact ih

theorem Kind.isAccepting_ofAccepting (b : Bool) : (ofAccepting b).isAccepting = b := by
  cases b <;> rfl

namespace Dfa

variable {a : Nfa} {d : Dfa} {i : StateId}

theorem Standing.kind {q : State} (standing : Standing a d) (found : d.states[i]? = some q) :
    q.kind = .ofAccepting (q.members.any a.isAccepting) :=
  congrArg State.kind (standing.bare_of_found found)

theorem Standing.isAccepting {q : State} (standing : Standing a d) (found : d.states[i]? = some q) :
    q.isAccepting = q.members.any a.isAccepting := by
  rw [State.isAccepting, standing.kind found, Kind.isAccepting_ofAccepting]

theorem Determinizes.follow (e : Determinizes a d) (h : a.WellFormed) (free : a.isEpsilonFree)
    {w : Word} (exist : i < d.size) :
    ∃ last, a.readFrom (d.members i) w = .ok last ∧ ((d.follow i w).isSome ↔ w = [] ∨ last ≠ ∅) ∧
      ∀ j, d.follow i w = some j → j < d.size ∧ d.members j = last := by
  -- From a state with the right members on; that the word starts at the first one does not induct.
  induction w generalizing i with
  | nil =>
    refine ⟨d.members i, rfl, by simp [Dfa.follow], fun j there => ?_⟩
    obtain rfl := Option.some.inj there
    exact ⟨exist, rfl⟩
  | cons x rest ih =>
    have move := h.close_of_epsilonFree free (h.move_lt (d.members i) x)
    have reads : a.readFrom (d.members i) (x :: rest) =
        a.readFrom (a.move (d.members i) x) rest := by
      rw [Nfa.readFrom, move]
      rfl
    by_cases dry : a.move (d.members i) x = ∅
    · have stuck : d.successor i x = none := by
        refine Option.eq_none_iff_forall_not_mem.mpr fun j there => ?_
        have image := e.sound (e.wellFormed.successor_eq_some.mp there)
        obtain ⟨some, same⟩ := h.images_eq_some.mp image
        exact some (same.trans dry)
      refine ⟨∅, by rw [reads, dry, h.readFrom_empty], ?_, fun j there => ?_⟩
      · simp [Dfa.follow, stuck]
      · simp [Dfa.follow, stuck] at there
    · have image := h.images_eq_some.mpr ⟨dry, rfl⟩
      obtain ⟨j, listed, same⟩ := (e.complete exist image).resolve_left id
      have next : d.successor i x = some j := e.wellFormed.successor_eq_some.mpr listed
      have follows : d.follow i (x :: rest) = d.follow j rest := by
        rw [Dfa.follow, next]
      obtain ⟨last, read, reaches, members⟩ := ih (e.wellFormed.ends _ listed).2
      rw [same] at read
      refine ⟨last, reads.trans read, ?_, fun k there => members k (follows ▸ there)⟩
      rw [follows, reaches]
      constructor
      · intro either
        rcases either with rfl | some
        · obtain rfl : a.move (d.members i) x = last := Except.ok.inj read
          exact .inr dry
        · exact .inr some
      · intro either
        rcases either with absurd | some
        · cases absurd
        · exact .inr some

theorem Determinizes.configuration (e : Determinizes a d) (h : a.WellFormed)
    (free : a.isEpsilonFree) (w : Word) :
    ∃ last, a.configuration w = .ok last ∧ ((d.follow 0 w).isSome ↔ w = [] ∨ last ≠ ∅) ∧
      ∀ i, d.follow 0 w = some i → ∃ q, d.states[i]? = some q ∧ q.members = last ∧
        q.isAccepting = last.any a.isAccepting := by
  obtain ⟨exist, initial⟩ := e.first
  obtain ⟨last, read, reaches, members⟩ := e.follow h free exist
  refine ⟨last, ?_, reaches, fun i there => ?_⟩
  · rw [Nfa.configuration, h.close_of_epsilonFree free h.starts, ← initial]
    exact read
  · obtain ⟨inside, same⟩ := members i there
    obtain ⟨q, found⟩ := exists_state inside
    have here : q.members = last := (members_of_found found).symm.trans same
    exact ⟨q, found, here, here ▸ e.standing.isAccepting found⟩

theorem Determinizes.accepts (e : Determinizes a d) (h : a.WellFormed) (free : a.isEpsilonFree)
    (w : Word) : a.accepts w = .ok (d.accepts w) := by
  obtain ⟨last, read, reaches, members⟩ := e.configuration h free w
  have before : a.accepts w = .ok (last.any a.isAccepting) := by
    rw [Nfa.accepts, read]
    rfl
  obtain ⟨first, there⟩ := exists_state e.first.1
  have initial : d.initial = some first := List.head?_eq_getElem?.trans there
  rw [before, Dfa.accepts, initial]
  show _ = Except.ok (((d.follow first.id w).map d.isAccepting).getD false)
  rw [e.wellFormed.numbered 0 first there]
  refine congrArg Except.ok ?_
  cases followed : d.follow 0 w with
  | none =>
    have dry : last = ∅ := by
      by_cases empty : last = ∅
      · exact empty
      · have reached := reaches.mpr (.inr empty)
        rw [followed] at reached
        cases reached
    rw [dry]
    rfl
  | some i =>
    obtain ⟨q, found, _, accepting⟩ := members i followed
    rw [← accepting, Option.map_some, Option.getD_some, isAccepting, found]

end Dfa

/-! ### From words to states -/

namespace Nfa

variable {a : Nfa}

/-- Determinization preserves the language. -/
theorem Reachable.accepts_determinize (h : Reachable a) (free : a.isEpsilonFree) :
    ∃ d log, a.determinize = ⟨d, log, .ok ()⟩ ∧ ∀ w : Word, a.accepts w = .ok (d.accepts w) := by
  obtain ⟨d, log, ran, e⟩ := Dfa.determinize_succeeds h.wellFormed.bounded free
  exact ⟨d, log, ran, e.accepts h.wellFormed free⟩

/-- Two letters lead apart and together again. -/
def fork : List Operation := [
  .addState "p" .ordinary, .addState "q" .ordinary, .addState "r" .accepting, .addInitial 0,
  .addTransition ⟨0, .letter "x", 1⟩, .addTransition ⟨0, .letter "x", 2⟩,
  .addTransition ⟨1, .letter "y", 2⟩, .addTransition ⟨2, .letter "y", 0⟩]

theorem accepts_determinize_fork :
    ∃ d log, (run {} fork).determinize = ⟨d, log, .ok ()⟩ ∧
      ∀ w : Word, (run {} fork).accepts w = .ok (d.accepts w) :=
  Reachable.accepts_determinize ⟨fork, by decide, rfl⟩ (by decide)

/-- After elimination and determinization a word leads to the configuration of the original
automaton, which accepts there as it did. -/
theorem Reachable.follow_determinize (h : Reachable a) :
    ∃ b log d log', eliminateEpsilons a = ⟨b, log, .ok ()⟩ ∧ b.determinize = ⟨d, log', .ok ()⟩ ∧
      ∀ w : Word, .epsilon ∉ w → ∃ c, a.configuration w = .ok c ∧
        ((d.follow 0 w).isSome ↔ w = [] ∨ c ≠ ∅) ∧
        ∀ i, d.follow 0 w = some i → ∃ q, d.states[i]? = some q ∧ q.members = c ∧
          (q.isAccepting ↔ ∃ p ∈ c, a.isAccepting p) := by
  obtain ⟨b, log, ran, wellFormed, e⟩ := h.wellFormed.eliminateEpsilons
  obtain ⟨d, log', ran', determinizes⟩ :=
    Dfa.determinize_succeeds wellFormed.bounded e.isEpsilonFree
  refine ⟨b, log, d, log', ran, ran', fun w letters => ?_⟩
  obtain ⟨c, before, after, closed⟩ := e.configuration h.wellFormed wellFormed letters
  obtain ⟨last, read, reaches, states⟩ :=
    determinizes.configuration wellFormed e.isEpsilonFree w
  obtain rfl : last = c := Except.ok.inj (read.symm.trans after)
  refine ⟨last, before, reaches, fun i there => ?_⟩
  obtain ⟨q, found, members, accepting⟩ := states i there
  refine ⟨q, found, members, ?_⟩
  rw [accepting, e.any_isAccepting closed]
  exact List.any_eq_true

theorem follow_determinize_detour :
    ∃ b log d log', eliminateEpsilons (run {} detour) = ⟨b, log, .ok ()⟩ ∧
      b.determinize = ⟨d, log', .ok ()⟩ ∧
      ∀ w : Word, .epsilon ∉ w → ∃ c, (run {} detour).configuration w = .ok c ∧
        ((d.follow 0 w).isSome ↔ w = [] ∨ c ≠ ∅) ∧
        ∀ i, d.follow 0 w = some i → ∃ q, d.states[i]? = some q ∧ q.members = c ∧
          (q.isAccepting ↔ ∃ p ∈ c, (run {} detour).isAccepting p) :=
  Reachable.follow_determinize ⟨detour, by decide, rfl⟩

end Nfa
end FiniteAutomata
