import FiniteAutomata.Proofs.Saturation

/-!
The passes of epsilon elimination, one by one, on a well-formed automaton. Each succeeds, keeps the
automaton well-formed and touches only what it is for.
-/

namespace FiniteAutomata.Nfa

variable {a b : Nfa}

/-- The numbers and names of the states. -/
def roster (a : Nfa) : List (StateId × String) := a.states.map fun q => (q.id, q.name)

theorem roster_of_bare (same : b.bare = a.bare) : b.roster = a.roster :=
  map_of_bare (fun _ => rfl) same

theorem size_of_roster (same : b.roster = a.roster) : b.size = a.size := by
  have lengths := congrArg List.length same
  simpa only [roster, List.length_map, size] using lengths

theorem nameOf_of_roster (same : b.roster = a.roster) : b.nameOf = a.nameOf := by
  have read (c : Nfa) (q : StateId) :
      c.nameOf q = ((c.roster[q]?).map Prod.snd).getD (numbered q) := by
    unfold nameOf roster
    rw [List.getElem?_map]
    cases c.states[q]? <;> rfl
  funext q
  rw [read, read, same]

/-! ### Initial states -/

/-- With other initial states. -/
def starting (a : Nfa) (starts : StateSet) : Nfa := { a with initial := starts }

theorem closeInitial_succeeds (h : WellFormed a) :
    ∃ closure met, closeInitial a = ⟨a.starting closure,
        met.map (fun q => .initialThroughEpsilon (a.nameOf q)) ++ [.initialClosed met.length],
        .ok ()⟩ ∧
      WellFormed (a.starting closure) ∧
      (∀ q, q ∈ closure ↔ ∃ p ∈ a.initial, a.EpsilonPath p q) ∧
      Lists met fun q => q ∈ closure ∧ q ∉ a.initial := by
  obtain ⟨s, found, seen⟩ := h.epsilonClosure_succeeds h.starts
  have searched : Edit.ofExcept (a.epsilonClosure a.initial) a = ⟨a, [], .ok s⟩ := by
    rw [found]
    rfl
  refine ⟨s.seen, s.found, Edit.bind_of_silent Edit.get_apply (Edit.bind_of_silent searched
    (Edit.bind_of_silent Edit.set_apply (Edit.bind_of_ok rfl rfl))), ?_, seen,
    (Graph.explore_met found).beyond⟩
  refine { h with starts := fun q member => ?_ }
  obtain ⟨p, start, path⟩ := (seen q).mp member
  exact h.epsilonPath_lt (h.starts p start) path

/-! ### Saturation -/

theorem saturateReporting_succeeds {rule : Rule} {kind : Symbol → Bool} {event : Nat → Event}
    (carries : rule.Carries kind) (h : WellFormed a) :
    ∃ added, saturateReporting rule event a = ⟨a.includingAll added,
        added.map (fun t => .added (a.shown t)) ++ [event added.length], .ok ()⟩ ∧
      Saturating a kind [] added := by
  obtain ⟨added, ran, saturated⟩ := saturate_succeeds carries h
  refine ⟨added, Edit.bind_of_silent Edit.get_apply (Edit.bind_of_ok ran
    (Edit.bind_of_silent Edit.get_apply ?_)), saturated⟩
  rw [transitions_includingAll, List.length_append, Nat.add_sub_cancel_left]
  rfl

theorem Saturating.alphabet {kind : Symbol → Bool} {queue added : List Transition}
    (h : WellFormed a) (s : Saturating a kind queue added) :
    (a.includingAll added).alphabet = a.alphabet := by
  refine alphabet_includingAll fun t member letter => ?_
  obtain ⟨r, listed, _⟩ := s.rooted t (List.mem_append_right _ member)
  exact h.known ⟨t.source, t.symbol, r⟩ listed letter

/-! ### Acceptance -/

/-- What becomes of an automaton when acceptance is inherited along some epsilon transitions. -/
structure Inherits (a : Nfa) (ts : List Transition) (b : Nfa) : Prop where
  wellFormed : WellFormed b
  roster : b.roster = a.roster
  alphabet : b.alphabet = a.alphabet
  transitions : b.transitions = a.transitions
  initial : b.initial = a.initial
  kept : ∀ q, a.isAccepting q → b.isAccepting q
  inherited : ∀ t ∈ ts, a.isAccepting t.target → b.isAccepting t.source
  reason : ∀ q, b.isAccepting q → ∃ f, a.isAccepting f ∧ a.EpsilonPath q f

theorem isAccepting_promoting (h : WellFormed a) {q : StateId} (exist : q < a.size) (p : StateId) :
    (a.promoting q).isAccepting p ↔ p = q ∨ a.isAccepting p := by
  unfold isAccepting promoting
  rw [List.getElem?_map]
  cases found : a.states[p]? with
  | none =>
    have out : a.size ≤ p := List.getElem?_eq_none_iff.mp found
    simp only [Option.map_none, Bool.false_eq_true, or_false, false_iff]
    rintro rfl
    exact absurd exist (Nat.not_lt.mpr out)
  | some s =>
    have number := h.numbered p s found
    simp only [Option.map_some]
    by_cases same : p = q
    · rw [if_pos (number.trans same)]
      simp only [same, true_or, iff_true]
      rfl
    · rw [if_neg (fun here => same (number.symm.trans here))]
      simp only [same, false_or]

theorem epsilonPath_congr (same : b.transitions = a.transitions) {p q : StateId} :
    b.EpsilonPath p q ↔ a.EpsilonPath p q := by
  unfold EpsilonPath EpsilonStep
  rw [same]

theorem inherits_nil (h : WellFormed a) : Inherits a [] a where
  wellFormed := h
  roster := rfl
  alphabet := rfl
  transitions := rfl
  initial := rfl
  kept _ accepts := accepts
  inherited _ member := (List.not_mem_nil member).elim
  reason q accepts := ⟨q, accepts, .refl⟩

theorem roster_promoting (a : Nfa) (q : StateId) : (a.promoting q).roster = a.roster := by
  unfold roster promoting
  rw [List.map_map]
  refine List.map_congr_left fun s _ => ?_
  show ((if s.id = q then s.promote.1 else s).id, (if s.id = q then s.promote.1 else s).name) = _
  split <;> rfl

theorem inheritAcceptance_succeeds {ts : List Transition} (h : WellFormed a)
    (steps : ∀ t ∈ ts, a.EpsilonStep t.source t.target) :
    ∃ b gained, inheritAcceptance ts a =
        ⟨b, gained.map fun q => .acceptingThroughEpsilon (a.nameOf q), .ok gained.length⟩ ∧
      Inherits a ts b ∧ Lists gained fun q => b.isAccepting q ∧ ¬ a.isAccepting q := by
  -- The rest of the list is inherited along from the promoted automaton, which has the same paths.
  induction ts generalizing a with
  | nil => exact ⟨a, [], rfl, inherits_nil h, .nil, by simp⟩
  | cons t rest ih =>
    have step : a.EpsilonStep t.source t.target := steps t List.mem_cons_self
    have exist : t.source < a.size := (h.ends _ step).1
    by_cases gains : (a.isAccepting t.target && !a.isAccepting t.source) = true
    · obtain ⟨accepts, ordinary⟩ := Bool.and_eq_true_iff.mp gains
      obtain ⟨b, gained, ran, after, listed⟩ :=
        ih (h.promoting t.source) fun u member => steps u (List.mem_cons_of_mem t member)
      have promoted := isAccepting_promoting h exist
      refine ⟨b, t.source :: gained, Edit.bind_of_silent Edit.get_apply ?_, ?_, ?_⟩
      · rw [if_pos gains]
        rw [nameOf_of_roster (roster_promoting a t.source)] at ran
        exact Edit.bind_of_silent (promote_eq h exist) (Edit.bind_emit (Edit.map_of_ok _ ran))
      · refine { after with
          roster := after.roster.trans (roster_promoting a t.source)
          kept := fun q before => after.kept q ((promoted q).mpr (.inr before))
          inherited := fun u member before => ?_
          reason := fun q final => ?_ }
        · rcases List.mem_cons.mp member with rfl | later
          · exact after.kept _ ((promoted _).mpr (.inl rfl))
          · exact after.inherited u later ((promoted _).mpr (.inr before))
        · obtain ⟨f, accepting, path⟩ := after.reason q final
          rw [epsilonPath_congr rfl] at path
          rcases (promoted f).mp accepting with rfl | before
          · exact ⟨t.target, accepts, path.tail step⟩
          · exact ⟨f, before, path⟩
      · have final : b.isAccepting t.source := after.kept _ ((promoted _).mpr (.inl rfl))
        have new : ¬ a.isAccepting t.source := by simpa using ordinary
        refine (listed.cons fun later => ?_).congr fun q => ?_
        · exact later.2 ((promoted _).mpr (.inl rfl))
        · rw [promoted, not_or]
          by_cases same : q = t.source
          · rw [same]
            exact iff_of_true (.inl rfl) ⟨final, new⟩
          · simp only [same, false_or, not_false_eq_true, true_and]
    · obtain ⟨b, gained, ran, after, listed⟩ :=
        ih h fun u member => steps u (List.mem_cons_of_mem t member)
      refine ⟨b, gained, Edit.bind_of_silent Edit.get_apply ?_, ?_, listed⟩
      · rw [if_neg gains]
        exact ran
      · refine { after with inherited := fun u member before => ?_ }
        rcases List.mem_cons.mp member with rfl | later
        · exact after.kept _ (by simpa [before] using gains)
        · exact after.inherited u later before

theorem promoteAccepting_succeeds (h : WellFormed a) :
    ∃ b gained, promoteAccepting a = ⟨b,
        gained.map (fun q => .acceptingThroughEpsilon (a.nameOf q)) ++ [.promoted gained.length],
        .ok ()⟩ ∧
      Inherits a a.epsilonTransitions b ∧
      Lists gained fun q => b.isAccepting q ∧ ¬ a.isAccepting q := by
  have steps : ∀ t ∈ a.epsilonTransitions, a.EpsilonStep t.source t.target := by
    intro t member
    obtain ⟨listed, epsilon⟩ := List.mem_filter.mp member
    obtain ⟨p, x, q⟩ := t
    obtain rfl := Symbol.isEpsilon_iff.mp epsilon
    exact listed
  obtain ⟨b, gained, ran, inherits⟩ := inheritAcceptance_succeeds h steps
  exact ⟨b, gained, Edit.bind_of_silent Edit.get_apply (Edit.bind_of_ok ran rfl), inherits⟩

/-! ### Removal -/

def excludingAll (a : Nfa) (ts : List Transition) : Nfa := ts.foldl excluding a

theorem bare_excludingAll (a : Nfa) (ts : List Transition) : (a.excludingAll ts).bare = a.bare := by
  induction ts generalizing a with
  | nil => rfl
  | cons t rest ih => exact (ih (a.excluding t)).trans (bare_excluding a t)

theorem removeAll_succeeds {ts : List Transition} (h : WellFormed a) (distinct : ts.Nodup)
    (listed : ∀ t ∈ ts, t ∈ a.transitions) :
    removeAll ts a = ⟨a.excludingAll ts, [], .ok ()⟩ ∧ WellFormed (a.excludingAll ts) ∧
      (a.excludingAll ts).alphabet = a.alphabet ∧ (a.excludingAll ts).initial = a.initial ∧
      (a.excludingAll ts).transitions = a.transitions.filter (· ∉ ts) := by
  induction ts generalizing a with
  | nil => exact ⟨rfl, h, rfl, rfl, (List.filter_eq_self.mpr fun _ _ => by simp).symm⟩
  | cons t rest ih =>
    obtain ⟨new, distinct⟩ := List.nodup_cons.mp distinct
    have here := listed t List.mem_cons_self
    obtain ⟨ran, wellFormed, alphabet, initial, transitions⟩ :=
      ih (h.excluding here) distinct fun u member => by
        have different : u ≠ t := fun same => new (same ▸ member)
        exact (List.mem_erase_of_ne different).mpr (listed u (List.mem_cons_of_mem t member))
    refine ⟨Edit.bind_of_silent (removeTransition_present h here) ran, wellFormed, alphabet, initial, ?_⟩
    refine transitions.trans ?_
    show (a.transitions.erase t).filter _ = _
    rw [h.distinct.erase_eq_filter, List.filter_filter]
    refine List.filter_congr fun u _ => ?_
    by_cases same : u = t <;> simp [same]

theorem discardEpsilon_succeeds (h : WellFormed a) :
    ∃ b, discardEpsilon a = ⟨b, [.discarded a.epsilonTransitions.length], .ok ()⟩ ∧
      WellFormed b ∧ b.bare = a.bare ∧ b.alphabet = a.alphabet ∧ b.initial = a.initial ∧
      b.transitions = a.transitions.filter (!·.isEpsilon) := by
  have listed : ∀ t ∈ a.epsilonTransitions, t ∈ a.transitions :=
    fun t member => (List.mem_filter.mp member).1
  obtain ⟨ran, wellFormed, alphabet, initial, transitions⟩ :=
    removeAll_succeeds h (h.distinct.filter _) listed
  refine ⟨_, Edit.bind_of_silent Edit.get_apply (Edit.bind_of_silent ran rfl), wellFormed,
    bare_excludingAll a _, alphabet, initial, transitions.trans ?_⟩
  refine List.filter_congr fun t member => ?_
  cases epsilon : t.isEpsilon <;> simp [epsilon, member]

/-- No epsilon transition is listed, and none is indexed under the empty word. -/
structure Lettered (a : Nfa) : Prop where
  listed : a.isEpsilonFree
  outbound : ∀ q ∈ a.states, q.outbound.on .epsilon = []
  inbound : ∀ q ∈ a.states, q.inbound.on .epsilon = []

theorem WellFormed.lettered (h : WellFormed a) (free : ∀ t ∈ a.transitions, !t.isEpsilon) :
    a.Lettered := by
  have unused : ∀ t : Transition, t.symbol = .epsilon → t ∉ a.transitions := by
    intro t epsilon listed
    have letter := free t listed
    rw [Transition.isEpsilon, Symbol.isEpsilon_iff.mpr epsilon] at letter
    cases letter
  constructor
  case listed => exact List.all_eq_true.mpr free
  case outbound =>
    refine fun q member => List.eq_nil_iff_forall_not_mem.mpr fun t there => ?_
    obtain ⟨listed, _, epsilon⟩ := (h.mirrored q member).outbound.mem_on.mp there
    exact unused t epsilon listed
  case inbound =>
    refine fun q member => List.eq_nil_iff_forall_not_mem.mpr fun t there => ?_
    obtain ⟨listed, _, epsilon⟩ := (h.mirrored q member).inbound.mem_on.mp there
    exact unused t epsilon listed

theorem verifyEpsilonFree_succeeds (h : a.Lettered) : verifyEpsilonFree a = ⟨a, [], .ok ()⟩ := by
  have none : a.leftover? = none := by
    refine List.findSome?_eq_none_iff.mpr fun q member => ?_
    rw [h.outbound q member, h.inbound q member]
    rfl
  refine Edit.bind_of_silent Edit.get_apply ?_
  rw [none]
  rfl

end FiniteAutomata.Nfa
