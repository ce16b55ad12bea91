import FiniteAutomata.Nfa.Operation
import FiniteAutomata.Proofs.Passes

/-!
Epsilon elimination computes its declarative result on every automaton that operations lead to, and
changes nothing else.
-/

namespace FiniteAutomata.Nfa

variable {a b : Nfa}

/-! ### The two saturations -/

/-- Saturated under composition, the epsilon transitions are the paths of one or more steps. -/
theorem Saturating.composed {added : List Transition} (s : Saturating a Symbol.isEpsilon [] added)
    {p q : StateId} :
    (a.includingAll added).EpsilonStep p q ↔ Relation.TransGen a.EpsilonStep p q := by
  unfold EpsilonStep
  rw [transitions_includingAll]
  constructor
  · intro listed
    obtain ⟨r, step, path⟩ := s.rooted _ listed
    exact Relation.TransGen.head' step path
  · intro path
    induction path using Relation.TransGen.head_induction_on with
    | single step => exact List.mem_append_left _ step
    | head step _ ih =>
      have served := (s.served _ ih rfl).resolve_left List.not_mem_nil
      exact served _ .epsilon rfl step

theorem Saturating.composed_path {added : List Transition}
    (s : Saturating a Symbol.isEpsilon [] added) {p q : StateId} :
    (a.includingAll added).EpsilonPath p q ↔ a.EpsilonPath p q := by
  have same : (a.includingAll added).EpsilonStep = Relation.TransGen a.EpsilonStep := by
    funext p q
    exact propext s.composed
  unfold EpsilonPath
  rw [same, Relation.reflTransGen_transGen]

/-- Where every epsilon path is one step or none, shortcuts are what epsilon paths call for. -/
theorem Saturating.shortened {added : List Transition} (s : Saturating a (!·.isEpsilon) [] added)
    (closed : ∀ p q, a.EpsilonPath p q → p = q ∨ a.EpsilonStep p q) {p q : StateId} {x : Symbol}
    (letter : x ≠ .epsilon) :
    ⟨p, x, q⟩ ∈ a.transitions ++ added ↔ ∃ r, ⟨p, x, r⟩ ∈ a.transitions ∧ a.EpsilonPath r q := by
  constructor
  · exact s.rooted ⟨p, x, q⟩
  · intro found
    obtain ⟨r, listed, path⟩ := found
    rcases closed r q path with rfl | step
    · exact List.mem_append_left _ listed
    · have served := (s.served _ (List.mem_append_left _ step) rfl).resolve_left List.not_mem_nil
      refine served p x ?_ listed
      cases x with
      | epsilon => exact absurd rfl letter
      | letter _ => rfl

theorem Saturating.filter_epsilons {added : List Transition}
    (s : Saturating a Symbol.isEpsilon [] added) : added.filter (!·.isEpsilon) = [] := by
  refine List.filter_eq_nil_iff.mpr fun t member => ?_
  have epsilon := s.kinds t member
  simpa only [Transition.isEpsilon, Bool.not_eq_true', Bool.not_eq_false] using epsilon

theorem Saturating.filter_letters {added : List Transition}
    (s : Saturating a (!·.isEpsilon) [] added) : added.filter (!·.isEpsilon) = added :=
  List.filter_eq_self.mpr fun t member => s.kinds t member

/-! ### Before the shortcuts -/

/-- What the first three passes make of an automaton. -/
structure Prepares (a b : Nfa) : Prop where
  wellFormed : WellFormed b
  initial : ∀ q, q ∈ b.initial ↔ ∃ p ∈ a.initial, a.EpsilonPath p q
  accepting : ∀ q, b.isAccepting q ↔ ∃ f, a.isAccepting f ∧ a.EpsilonPath q f
  steps : ∀ p q, b.EpsilonStep p q ↔ Relation.TransGen a.EpsilonStep p q
  letters : b.transitions.filter (!·.isEpsilon) = a.transitions.filter (!·.isEpsilon)
  roster : b.roster = a.roster
  alphabet : b.alphabet = a.alphabet

theorem prepare_succeeds (h : WellFormed a) :
    ∃ c d b log₁ log₂ log₃, closeInitial a = ⟨c, log₁, .ok ()⟩ ∧
      saturateReporting composition .epsilonClosed c = ⟨d, log₂, .ok ()⟩ ∧
      promoteAccepting d = ⟨b, log₃, .ok ()⟩ ∧ Prepares a b := by
  obtain ⟨closure, _, closes, h₁, closed, _⟩ := closeInitial_succeeds h
  obtain ⟨composed, saturates, s⟩ := saturateReporting_succeeds composition_carries h₁
  obtain ⟨b, _, promotes, inherits, _⟩ := promoteAccepting_succeeds s.wellFormed
  refine ⟨_, _, b, _, _, _, closes, saturates, promotes, ?_⟩
  have accepts := isAccepting_of_bare (bare_includingAll (a.starting closure) composed)
  constructor
  case wellFormed => exact inherits.wellFormed
  case initial =>
    intro q
    rw [inherits.initial, initial_includingAll]
    exact closed q
  case accepting =>
    intro q
    constructor
    · intro gained
      obtain ⟨f, final, path⟩ := inherits.reason q gained
      rw [accepts] at final
      rw [s.composed_path] at path
      exact ⟨f, final, (epsilonPath_congr rfl).mp path⟩
    · intro found
      obtain ⟨f, final, path⟩ := found
      have final : ((a.starting closure).includingAll composed).isAccepting f := by
        rw [accepts]
        exact final
      -- Composition is saturated, so an epsilon path is one transition or none.
      rcases Relation.reflTransGen_iff_eq_or_transGen.mp path with rfl | steps
      · exact inherits.kept _ final
      · have there : ⟨q, .epsilon, f⟩ ∈
            ((a.starting closure).includingAll composed).epsilonTransitions :=
          List.mem_filter.mpr ⟨s.composed.mpr steps, rfl⟩
        exact inherits.inherited _ there final
  case steps =>
    intro p q
    unfold EpsilonStep
    rw [inherits.transitions]
    exact s.composed
  case letters =>
    rw [inherits.transitions, transitions_includingAll, List.filter_append, s.filter_epsilons]
    exact List.append_nil _
  case roster =>
    exact inherits.roster.trans (roster_of_bare (bare_includingAll (a.starting closure) composed))
  case alphabet =>
    rw [inherits.alphabet]
    exact s.alphabet h₁

namespace Prepares

theorem path_iff (prepared : Prepares a b) {p q : StateId} :
    b.EpsilonPath p q ↔ a.EpsilonPath p q := by
  have same : b.EpsilonStep = Relation.TransGen a.EpsilonStep := by
    funext p q
    exact propext (prepared.steps p q)
  unfold EpsilonPath
  rw [same, Relation.reflTransGen_transGen]

theorem path_closed (prepared : Prepares a b) (p q : StateId) (path : b.EpsilonPath p q) :
    p = q ∨ b.EpsilonStep p q := by
  rcases Relation.reflTransGen_iff_eq_or_transGen.mp (prepared.path_iff.mp path) with same | steps
  · exact .inl same.symm
  · exact .inr ((prepared.steps p q).mpr steps)

theorem mem_letters (prepared : Prepares a b) {p q : StateId} {x : Symbol}
    (letter : !x.isEpsilon) : ⟨p, x, q⟩ ∈ b.transitions ↔ ⟨p, x, q⟩ ∈ a.transitions := by
  have kept : ⟨p, x, q⟩ ∈ b.transitions.filter (!·.isEpsilon) ↔
      ⟨p, x, q⟩ ∈ a.transitions.filter (!·.isEpsilon) := by
    rw [prepared.letters]
  rw [List.mem_filter, List.mem_filter] at kept
  exact (and_iff_left letter).symm.trans (kept.trans (and_iff_left letter))

end Prepares

/-! ### The result -/

/-- What elimination makes of an automaton. -/
structure Eliminates (a b : Nfa) : Prop where
  initial : ∀ q, q ∈ b.initial ↔ ∃ p ∈ a.initial, a.EpsilonPath p q
  accepting : ∀ q, b.isAccepting q ↔ ∃ f, a.isAccepting f ∧ a.EpsilonPath q f
  transitions : ∀ c x q, ⟨c, x, q⟩ ∈ b.transitions ↔
    x ≠ .epsilon ∧ ∃ p, ⟨c, x, p⟩ ∈ a.transitions ∧ a.EpsilonPath p q
  order : ∃ shortcuts, b.transitions = a.transitions.filter (!·.isEpsilon) ++ shortcuts ∧
    b.transitions.Nodup ∧ ∀ t ∈ shortcuts, t ∉ a.transitions
  roster : b.roster = a.roster
  alphabet : b.alphabet = a.alphabet

theorem Prepares.eliminates {c : Nfa} (prepared : Prepares a c) :
    ∃ d b log₁ log₂, saturateReporting shortcut .shortcutsAdded c = ⟨d, log₁, .ok ()⟩ ∧
      discardEpsilon d = ⟨b, log₂, .ok ()⟩ ∧ WellFormed b ∧ (∀ t ∈ b.transitions, !t.isEpsilon) ∧
      Eliminates a b := by
  obtain ⟨shortcuts, saturates, s⟩ :=
    saturateReporting_succeeds shortcut_carries prepared.wellFormed
  obtain ⟨b, discards, wellFormed, bare, alphabet, initial, transitions⟩ :=
    discardEpsilon_succeeds s.wellFormed
  rw [transitions_includingAll] at transitions
  have same := bare.trans (bare_includingAll c shortcuts)
  have free : ∀ t ∈ b.transitions, !t.isEpsilon := by
    intro t member
    rw [transitions] at member
    exact (List.mem_filter.mp member).2
  refine ⟨_, b, _, _, saturates, discards, wellFormed, free, ?_⟩
  constructor
  case initial =>
    intro q
    rw [initial, initial_includingAll]
    exact prepared.initial q
  case accepting =>
    intro q
    rw [isAccepting_of_bare same]
    exact prepared.accepting q
  case transitions =>
    intro p x q
    rw [transitions, List.mem_filter]
    constructor
    · intro found
      obtain ⟨member, letter⟩ := found
      have proper : x ≠ .epsilon := by
        rintro rfl
        cases letter
      obtain ⟨r, first, path⟩ := (s.shortened prepared.path_closed proper).mp member
      exact ⟨proper, r, (prepared.mem_letters letter).mp first, prepared.path_iff.mp path⟩
    · intro found
      obtain ⟨proper, r, first, path⟩ := found
      have letter : !x.isEpsilon := by
        cases x with
        | epsilon => exact absurd rfl proper
        | letter _ => rfl
      have first : ⟨p, x, r⟩ ∈ c.transitions := (prepared.mem_letters letter).mpr first
      have path : c.EpsilonPath r q := prepared.path_iff.mpr path
      exact ⟨(s.shortened prepared.path_closed proper).mpr ⟨r, first, path⟩, letter⟩
  case order =>
    refine ⟨shortcuts, ?_, wellFormed.distinct, fun t member there => ?_⟩
    · rw [transitions, List.filter_append, prepared.letters, s.filter_letters]
    · have distinct := s.wellFormed.distinct
      rw [transitions_includingAll] at distinct
      have listed : t ∈ c.transitions := (prepared.mem_letters (s.kinds t member)).mpr there
      exact (List.nodup_append.mp distinct).2.2 t listed t member rfl
  case roster => exact (roster_of_bare same).trans prepared.roster
  case alphabet => rw [alphabet, s.alphabet prepared.wellFormed, prepared.alphabet]

/-- If every pass succeeds and leaves nothing under the empty word, elimination succeeds. -/
theorem eliminateEpsilons_of_passes {c d e f : Nfa} {log₁ log₂ log₃ log₄ log₅ : List Event}
    (closes : closeInitial a = ⟨c, log₁, .ok ()⟩)
    (composes : saturateReporting composition .epsilonClosed c = ⟨d, log₂, .ok ()⟩)
    (promotes : promoteAccepting d = ⟨e, log₃, .ok ()⟩)
    (shortens : saturateReporting shortcut .shortcutsAdded e = ⟨f, log₄, .ok ()⟩)
    (discards : discardEpsilon f = ⟨b, log₅, .ok ()⟩) (lettered : b.Lettered) :
    eliminateEpsilons a = ⟨b, .eliminating a.epsilonTransitions.length a.size ::
      (log₁ ++ (log₂ ++ (log₃ ++ (log₄ ++ (log₅ ++ []))))), .ok ()⟩ :=
  Edit.bind_of_silent Edit.get_apply (Edit.bind_emit (Edit.bind_of_ok closes
    (Edit.bind_of_ok composes (Edit.bind_of_ok promotes (Edit.bind_of_ok shortens
      (Edit.bind_of_ok discards (verifyEpsilonFree_succeeds lettered)))))))

theorem WellFormed.eliminateEpsilons (h : WellFormed a) :
    ∃ b log, eliminateEpsilons a = ⟨b, log, .ok ()⟩ ∧ WellFormed b ∧ Eliminates a b := by
  obtain ⟨_, _, c, _, _, _, closes, composes, promotes, prepared⟩ := prepare_succeeds h
  obtain ⟨_, b, _, _, shortens, discards, wellFormed, free, eliminates⟩ := prepared.eliminates
  exact ⟨b, _, eliminateEpsilons_of_passes closes composes promotes shortens discards
    (wellFormed.lettered free), wellFormed, eliminates⟩

end FiniteAutomata.Nfa
