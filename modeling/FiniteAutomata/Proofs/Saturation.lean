import FiniteAutomata.Proofs.Edits
import FiniteAutomata.Proofs.EpsilonClosure

/-!
Saturation under a rule that carries the transitions entering the source of an epsilon transition
over to its target. It succeeds on every well-formed automaton, whatever the order of the queue. It
adds nothing but transitions that an epsilon path continues, and it leaves no epsilon transition to
whose target a transition of the automaton it started from was not carried over.
-/

namespace FiniteAutomata.Nfa

variable {a : Nfa}

def includingAll (a : Nfa) (ts : List Transition) : Nfa := ts.foldl including a

theorem includingAll_append (a : Nfa) (ts us : List Transition) :
    a.includingAll (ts ++ us) = (a.includingAll ts).includingAll us :=
  List.foldl_append

theorem bare_includingAll (a : Nfa) (ts : List Transition) : (a.includingAll ts).bare = a.bare := by
  induction ts generalizing a with
  | nil => rfl
  | cons t rest ih => exact (ih (a.including t)).trans (bare_including a t)

theorem initial_includingAll (a : Nfa) (ts : List Transition) :
    (a.includingAll ts).initial = a.initial := by
  induction ts generalizing a with
  | nil => rfl
  | cons t rest ih => exact ih (a.including t)

theorem transitions_includingAll (a : Nfa) (ts : List Transition) :
    (a.includingAll ts).transitions = a.transitions ++ ts := by
  induction ts generalizing a with
  | nil => exact (List.append_nil _).symm
  | cons t rest ih =>
    have later := ih (a.including t)
    rw [show (a.including t).transitions = a.transitions ++ [t] from rfl, List.append_assoc] at later
    exact later

theorem alphabet_includingAll {ts : List Transition}
    (known : ∀ t ∈ ts, t.symbol ≠ .epsilon → t.symbol ∈ a.alphabet.letters) :
    (a.includingAll ts).alphabet = a.alphabet := by
  induction ts generalizing a with
  | nil => rfl
  | cons t rest ih =>
    have same : (a.including t).alphabet = a.alphabet :=
      Alphabet.learn_of_known (known t List.mem_cons_self)
    refine (ih fun u member => ?_).trans same
    rw [same]
    exact known u (List.mem_cons_of_mem t member)

/-- Of transitions between existing states, exactly those not listed yet are added. -/
theorem addMissing_succeeds {ts : List Transition} (h : WellFormed a)
    (ends : ∀ t ∈ ts, t.source < a.size ∧ t.target < a.size) :
    ∃ fresh, addMissing ts a =
        ⟨a.includingAll fresh, fresh.map fun t => .added (a.shown t), .ok fresh⟩ ∧
      WellFormed (a.includingAll fresh) ∧ ∀ t, t ∈ fresh ↔ t ∈ ts ∧ t ∉ a.transitions := by
  induction ts generalizing a with
  | nil => exact ⟨[], rfl, h, by simp⟩
  | cons t rest ih =>
    by_cases listed : t ∈ a.transitions
    · obtain ⟨fresh, added, wellFormed, exact⟩ :=
        ih h fun u member => ends u (List.mem_cons_of_mem t member)
      refine ⟨fresh, ?_, wellFormed, fun u => ?_⟩
      · exact Edit.bind_of_silent (addTransition_present h listed) (Edit.map_of_ok _ added)
      · rw [exact, List.mem_cons]
        constructor
        · intro found
          obtain ⟨member, absent⟩ := found
          exact ⟨.inr member, absent⟩
        · intro found
          obtain ⟨rfl | member, absent⟩ := found
          · exact absurd listed absent
          · exact ⟨member, absent⟩
    · obtain ⟨source, target⟩ := ends t List.mem_cons_self
      have next := h.including source target listed
      obtain ⟨fresh, added, wellFormed, exact⟩ := ih next fun u member => by
        rw [size_including]
        exact ends u (List.mem_cons_of_mem t member)
      refine ⟨t :: fresh, ?_, wellFormed, fun u => ?_⟩
      · simp only [shown_of_bare (bare_including a t)] at added
        exact Edit.bind_of_ok (addTransition_absent h source target listed) (Edit.map_of_ok _ added)
      · have grown : (a.including t).transitions = a.transitions ++ [t] := rfl
        rw [List.mem_cons, List.mem_cons, exact, grown, List.mem_append, List.mem_singleton, not_or]
        by_cases same : u = t
        · simp only [same, true_or, listed, not_false_eq_true, and_self]
        · simp only [same, false_or, not_false_eq_true, and_true]

/-! ### Rules that carry transitions over -/

/-- The rule calls for the transitions of some kind that enter the source, moved to the target. -/
def Rule.Carries (rule : Rule) (kind : Symbol → Bool) : Prop :=
  ∀ {a : Nfa} {t u : Transition}, WellFormed a →
    (u ∈ rule.calls a t ↔ ∃ p x, kind x ∧ ⟨p, x, t.source⟩ ∈ a.transitions ∧ u = ⟨p, x, t.target⟩)

theorem composition_carries : composition.Carries Symbol.isEpsilon := by
  intro a t u h
  show u ∈ (a.inboundOn t.source .epsilon).map _ ↔ _
  simp only [List.mem_map, h.mem_inboundOn]
  constructor
  · intro found
    obtain ⟨⟨p, x, q⟩, ⟨listed, rfl, rfl⟩, rfl⟩ := found
    exact ⟨p, .epsilon, rfl, listed, rfl⟩
  · intro found
    obtain ⟨p, x, epsilon, listed, rfl⟩ := found
    obtain rfl := Symbol.isEpsilon_iff.mp epsilon
    exact ⟨_, ⟨listed, rfl, rfl⟩, rfl⟩

theorem shortcut_carries : shortcut.Carries (!·.isEpsilon) := by
  intro a t u h
  show u ∈ ((a.edgesTo t.source).filter (!·.isEpsilon)).map _ ↔ _
  simp only [List.mem_map, List.mem_filter, h.mem_edgesTo]
  constructor
  · intro found
    obtain ⟨⟨p, x, q⟩, ⟨⟨listed, rfl⟩, letter⟩, rfl⟩ := found
    exact ⟨p, x, letter, listed, rfl⟩
  · intro found
    obtain ⟨p, x, letter, listed, rfl⟩ := found
    exact ⟨_, ⟨⟨listed, rfl⟩, letter⟩, rfl⟩

/-- An epsilon path continues a listed transition with the same source and symbol. -/
def Rooted (a : Nfa) (t : Transition) : Prop :=
  ∃ r, ⟨t.source, t.symbol, r⟩ ∈ a.transitions ∧ a.EpsilonPath r t.target

/-- How far a saturation has come: an epsilon transition waits in the queue, or the transitions of
the automaton it started from have been carried over it. -/
structure Saturating (a : Nfa) (kind : Symbol → Bool) (queue added : List Transition) : Prop where
  wellFormed : WellFormed (a.includingAll added)
  queued : ∀ t ∈ queue, t.symbol = .epsilon ∧ t ∈ a.transitions ++ added
  rooted : ∀ t ∈ a.transitions ++ added, a.Rooted t
  kinds : ∀ t ∈ added, kind t.symbol
  served : ∀ t ∈ a.transitions ++ added, t.symbol = .epsilon → t ∈ queue ∨
    ∀ p x, kind x → ⟨p, x, t.source⟩ ∈ a.transitions → ⟨p, x, t.target⟩ ∈ a.transitions ++ added

namespace Saturating

variable {kind : Symbol → Bool} {rule : Rule} {t : Transition} {rest added : List Transition}

theorem start (h : WellFormed a) (kind : Symbol → Bool) :
    Saturating a kind a.epsilonTransitions [] where
  wellFormed := h
  queued t member := by
    obtain ⟨listed, epsilon⟩ := List.mem_filter.mp member
    exact ⟨Symbol.isEpsilon_iff.mp epsilon, List.mem_append_left _ listed⟩
  rooted t member := by
    rw [List.append_nil] at member
    exact ⟨t.target, member, .refl⟩
  kinds _ member := (List.not_mem_nil member).elim
  served t member epsilon := by
    rw [List.append_nil] at member
    exact .inl (List.mem_filter.mpr ⟨member, Symbol.isEpsilon_iff.mpr epsilon⟩)

/-- What an epsilon transition at hand calls for is rooted, since both it and what it carries
over are. -/
theorem rooted_call (h : Saturating a kind (t :: rest) added) {p : StateId} {x : Symbol}
    (listed : ⟨p, x, t.source⟩ ∈ a.transitions ++ added) : a.Rooted ⟨p, x, t.target⟩ := by
  obtain ⟨epsilon, here⟩ := h.queued t List.mem_cons_self
  obtain ⟨r, first, path⟩ := h.rooted _ listed
  obtain ⟨s, step, later⟩ := h.rooted t here
  rw [epsilon] at step
  exact ⟨r, first, path.trans (later.head step)⟩

/-- What is called for lies between existing states. -/
theorem call_ends (carries : rule.Carries kind) (h : Saturating a kind (t :: rest) added) :
    ∀ u ∈ rule.calls (a.includingAll added) t,
      u.source < (a.includingAll added).size ∧ u.target < (a.includingAll added).size := by
  intro u member
  obtain ⟨p, x, _, entering, rfl⟩ := (carries h.wellFormed).mp member
  obtain ⟨_, here⟩ := h.queued t List.mem_cons_self
  rw [← transitions_includingAll] at here
  exact ⟨(h.wellFormed.ends _ entering).1, (h.wellFormed.ends t here).2⟩

/-- One call adds what the rule carries over the transition at hand and what is not listed yet. -/
theorem call_succeeds (carries : rule.Carries kind) (h : Saturating a kind (t :: rest) added) :
    ∃ fresh, addMissing (rule.unmet (a.includingAll added) t) (a.includingAll added) =
        ⟨a.includingAll (added ++ fresh), fresh.map fun u => .added (a.shown u), .ok fresh⟩ ∧
      WellFormed (a.includingAll (added ++ fresh)) ∧ ∀ u, u ∈ fresh ↔
        (∃ p x, kind x ∧ ⟨p, x, t.source⟩ ∈ a.transitions ++ added ∧ u = ⟨p, x, t.target⟩) ∧
          u ∉ a.transitions ++ added := by
  have listed := transitions_includingAll a added
  have called : ∀ u, u ∈ rule.unmet (a.includingAll added) t ↔
      (∃ p x, kind x ∧ ⟨p, x, t.source⟩ ∈ a.transitions ++ added ∧ u = ⟨p, x, t.target⟩) ∧
        u ∉ a.transitions ++ added := by
    intro u
    rw [Rule.mem_unmet, carries h.wellFormed, listed]
  obtain ⟨fresh, ran, wellFormed, exact⟩ := addMissing_succeeds h.wellFormed
    fun u member => h.call_ends carries u (Rule.mem_unmet.mp member).1
  simp only [shown_of_bare (bare_includingAll a added), ← includingAll_append] at ran wellFormed
  refine ⟨fresh, ran, wellFormed, fun u => ?_⟩
  rw [exact, called, listed]
  exact and_iff_left_of_imp And.right

theorem step (carries : rule.Carries kind) (h : Saturating a kind (t :: rest) added) :
    ∃ fresh more, rule.apply t (a.includingAll added) = ⟨a.includingAll (added ++ fresh),
        fresh.map fun u => .added (a.shown u), .ok more⟩ ∧
      Saturating a kind (rest ++ more) (added ++ fresh) := by
  obtain ⟨epsilon, here⟩ := h.queued t List.mem_cons_self
  obtain ⟨fresh, ran, wellFormed, exact⟩ := h.call_succeeds carries
  have grown : ∀ u, u ∈ a.transitions ++ (added ++ fresh) ↔
      u ∈ a.transitions ++ added ∨ u ∈ fresh := by
    intro u
    rw [← List.append_assoc, List.mem_append]
  have served : ∀ p x, kind x → ⟨p, x, t.source⟩ ∈ a.transitions ++ added →
      ⟨p, x, t.target⟩ ∈ a.transitions ++ (added ++ fresh) := by
    intro p x passes entering
    rw [grown]
    by_cases present : (⟨p, x, t.target⟩ : Transition) ∈ a.transitions ++ added
    · exact .inl present
    · exact .inr ((exact _).mpr ⟨⟨p, x, passes, entering, rfl⟩, present⟩)
  refine ⟨fresh, if fresh.isEmpty then [] else fresh.filter Transition.isEpsilon ++ [t], ?_, ?_⟩
  · exact Edit.bind_of_silent Edit.get_apply (Edit.map_of_ok _ ran)
  constructor
  case wellFormed => exact wellFormed
  case queued =>
    intro u member
    rcases List.mem_append.mp member with waits | more
    · obtain ⟨label, there⟩ := h.queued u (List.mem_cons_of_mem t waits)
      exact ⟨label, (grown u).mpr (.inl there)⟩
    · split at more
      · cases more
      · rcases List.mem_append.mp more with fresh | again
        · obtain ⟨there, label⟩ := List.mem_filter.mp fresh
          exact ⟨Symbol.isEpsilon_iff.mp label, (grown u).mpr (.inr there)⟩
        · rw [List.mem_singleton.mp again]
          exact ⟨epsilon, (grown t).mpr (.inl here)⟩
  case rooted =>
    intro u member
    rcases (grown u).mp member with old | fresh
    · exact h.rooted u old
    · obtain ⟨⟨p, x, _, entering, rfl⟩, _⟩ := (exact u).mp fresh
      exact h.rooted_call entering
  case kinds =>
    intro u member
    rcases List.mem_append.mp member with old | fresh
    · exact h.kinds u old
    · obtain ⟨⟨p, x, passes, _, rfl⟩, _⟩ := (exact u).mp fresh
      exact passes
  case served =>
    -- One call serves the transition at hand for good: only what the automaton started with has to
    -- be carried over, and all of that is listed from the beginning.
    intro u member label
    rcases (grown u).mp member with old | there
    · rcases h.served u old label with waits | done
      · rcases List.mem_cons.mp waits with rfl | waits
        · exact .inr fun p x passes entering =>
            served p x passes (List.mem_append_left _ entering)
        · exact .inl (List.mem_append_left _ waits)
      · exact .inr fun p x passes entering => (grown _).mpr (.inl (done p x passes entering))
    · refine .inl (List.mem_append_right _ ?_)
      rw [if_neg (by simp [List.ne_nil_of_mem there])]
      exact List.mem_append_left _ (List.mem_filter.mpr ⟨there, Symbol.isEpsilon_iff.mpr label⟩)

end Saturating

theorem saturate_succeeds {rule : Rule} {kind : Symbol → Bool} (carries : rule.Carries kind)
    (h : WellFormed a) :
    ∃ added, saturate rule a =
        ⟨a.includingAll added, added.map fun t => .added (a.shown t), .ok ()⟩ ∧
      Saturating a kind [] added := by
  obtain ⟨b, log, ran, added, rfl, rfl, saturated⟩ :=
    (rule.worklist (.epsilon :: a.enteringSymbols)).run_succeeds
      (fun queue b log => ∃ added, b = a.includingAll added ∧
        log = added.map (fun t => .added (a.shown t)) ∧ Saturating a kind queue added)
      (fun {t rest b past} ⟨added, here, logged, saturating⟩ => by
        obtain ⟨fresh, more, applied, next⟩ := saturating.step carries
        refine ⟨_, _, more, here ▸ applied, added ++ fresh, rfl, ?_, next⟩
        rw [logged, List.map_append])
      [] ⟨List.mem_cons_self, a.enteredOn_enteringSymbols.mono fun _ => List.mem_cons_of_mem _⟩
      ⟨[], rfl, rfl, .start h kind⟩
  exact ⟨added, ran, saturated⟩

end FiniteAutomata.Nfa
