import FiniteAutomata.Nfa.Basic
import FiniteAutomata.Proofs.Index

/-!
The representation invariant of nondeterministic automata. States are numbered by their position,
names and transitions are not repeated, every number that occurs is one of a state, the alphabet
knows every letter in use, and the two indices of each state repeat the list of transitions.
-/

namespace FiniteAutomata.Nfa

/-- Both indices hold the listed transitions that touch the state, in the order of the list. -/
structure State.Mirrors (q : State) (listed : List Transition) : Prop where
  outbound : q.outbound.Lists (·.source = q.id) listed
  inbound : q.inbound.Lists (·.target = q.id) listed

structure WellFormed (a : Nfa) : Prop where
  numbered : Numbered State.id a.states
  names : (a.states.map State.name).Nodup
  mirrored : ∀ q ∈ a.states, q.Mirrors a.transitions
  distinct : a.transitions.Nodup
  ends : ∀ t ∈ a.transitions, t.source < a.size ∧ t.target < a.size
  starts : ∀ q ∈ a.initial, q < a.size
  letters : a.alphabet.letters.Nodup
  proper : .epsilon ∉ a.alphabet.letters
  known : ∀ t ∈ a.transitions, t.symbol ≠ .epsilon → t.symbol ∈ a.alphabet.letters

theorem wellFormed_empty : WellFormed {} where
  numbered _ _ found := by cases found
  names := .nil
  mirrored _ member := by cases member
  distinct := .nil
  ends _ member := by cases member
  starts _ member := by cases member
  letters := .nil
  proper := List.not_mem_nil
  known _ member := by cases member

theorem exists_state {a : Nfa} {q : StateId} (exist : q < a.size) : ∃ s, a.states[q]? = some s :=
  ⟨_, List.getElem?_eq_getElem exist⟩

theorem state_of_lt {a : Nfa} {q : StateId} (exist : q < a.size) :
    ∃ s, a.state q = .ok s ∧ s.isAccepting = a.isAccepting q ∧ s.name = a.nameOf q := by
  obtain ⟨s, found⟩ := exists_state exist
  refine ⟨s, ?_, ?_, ?_⟩
  · rw [state, found]
  · rw [isAccepting, found]
  · rw [nameOf, found]

/-! ### What the indices hold -/

namespace WellFormed

variable {a : Nfa}

theorem source_ne (h : WellFormed a) {q : StateId} (missing : a.states[q]? = none)
    {t : Transition} (member : t ∈ a.transitions) : t.source ≠ q := fun same =>
  absurd (same ▸ (h.ends t member).1) (Nat.not_lt.mpr (List.getElem?_eq_none_iff.mp missing))

theorem target_ne (h : WellFormed a) {q : StateId} (missing : a.states[q]? = none)
    {t : Transition} (member : t ∈ a.transitions) : t.target ≠ q := fun same =>
  absurd (same ▸ (h.ends t member).2) (Nat.not_lt.mpr (List.getElem?_eq_none_iff.mp missing))

theorem outboundOn_eq (h : WellFormed a) (q : StateId) (x : Symbol) :
    a.outboundOn q x = a.transitions.filter fun t => t.source = q ∧ t.symbol = x := by
  unfold outboundOn
  split
  · rename_i state found
    have mirrors := h.mirrored state (List.mem_of_getElem? found)
    rw [mirrors.outbound.on_eq, h.numbered q state found]
    simp only [Bool.decide_and]
  · rename_i missing
    symm
    apply List.filter_eq_nil_iff.mpr
    intro t member here
    exact h.source_ne missing member (of_decide_eq_true here).1

theorem inboundOn_eq (h : WellFormed a) (q : StateId) (x : Symbol) :
    a.inboundOn q x = a.transitions.filter fun t => t.target = q ∧ t.symbol = x := by
  unfold inboundOn
  split
  · rename_i state found
    have mirrors := h.mirrored state (List.mem_of_getElem? found)
    rw [mirrors.inbound.on_eq, h.numbered q state found]
    simp only [Bool.decide_and]
  · rename_i missing
    symm
    apply List.filter_eq_nil_iff.mpr
    intro t member here
    exact h.target_ne missing member (of_decide_eq_true here).1

theorem mem_outboundOn (h : WellFormed a) {q : StateId} {x : Symbol} {t : Transition} :
    t ∈ a.outboundOn q x ↔ t ∈ a.transitions ∧ t.source = q ∧ t.symbol = x := by
  rw [h.outboundOn_eq, List.mem_filter, decide_eq_true_eq]

theorem mem_inboundOn (h : WellFormed a) {q : StateId} {x : Symbol} {t : Transition} :
    t ∈ a.inboundOn q x ↔ t ∈ a.transitions ∧ t.target = q ∧ t.symbol = x := by
  rw [h.inboundOn_eq, List.mem_filter, decide_eq_true_eq]

theorem mem_edgesFrom (h : WellFormed a) {q : StateId} {t : Transition} :
    t ∈ a.edgesFrom q ↔ t ∈ a.transitions ∧ t.source = q := by
  unfold edgesFrom
  split
  · rename_i state found
    rw [(h.mirrored state (List.mem_of_getElem? found)).outbound.mem_edges, h.numbered q state found,
      decide_eq_true_eq]
  · rename_i missing
    exact ⟨fun member => (List.not_mem_nil member).elim, fun ⟨member, same⟩ =>
      absurd same (h.source_ne missing member)⟩

theorem mem_edgesTo (h : WellFormed a) {q : StateId} {t : Transition} :
    t ∈ a.edgesTo q ↔ t ∈ a.transitions ∧ t.target = q := by
  unfold edgesTo
  split
  · rename_i state found
    rw [(h.mirrored state (List.mem_of_getElem? found)).inbound.mem_edges, h.numbered q state found,
      decide_eq_true_eq]
  · rename_i missing
    exact ⟨fun member => (List.not_mem_nil member).elim, fun ⟨member, same⟩ =>
      absurd same (h.target_ne missing member)⟩

end WellFormed

/-! ### States without their indices -/

/-- What is left of a state when its transitions are put aside. -/
def State.bare (q : State) : State := { q with outbound := ∅, inbound := ∅ }

def bare (a : Nfa) : List State := a.states.map State.bare

section
variable {a b : Nfa}

theorem size_of_bare (same : b.bare = a.bare) : b.size = a.size := by
  have := congrArg List.length same
  simpa only [bare, List.length_map, size] using this

theorem getElem?_of_bare (same : b.bare = a.bare) (q : StateId) :
    (b.states[q]?).map State.bare = (a.states[q]?).map State.bare := by
  rw [← List.getElem?_map, ← List.getElem?_map]
  exact congrArg (·[q]?) same

theorem isAccepting_of_bare (same : b.bare = a.bare) (q : StateId) :
    b.isAccepting q = a.isAccepting q := by
  have read (c : Nfa) : c.isAccepting q =
      (((c.states[q]?).map State.bare).map State.isAccepting).getD false := by
    unfold isAccepting
    cases c.states[q]? <;> rfl
  rw [read, read, getElem?_of_bare same]

/-- What does not depend on transitions can be read off without them. -/
theorem map_of_bare {β : Type} {f : State → β} (blind : ∀ q : State, f q.bare = f q)
    (same : b.bare = a.bare) : b.states.map f = a.states.map f := by
  have read (c : Nfa) : c.bare.map f = c.states.map f := by
    rw [bare, List.map_map]
    exact List.map_congr_left fun q _ => blind q
  rw [← read, ← read, same]

theorem names_of_bare (same : b.bare = a.bare) :
    b.states.map State.name = a.states.map State.name :=
  map_of_bare (fun _ => rfl) same

theorem nameOf_of_bare (same : b.bare = a.bare) (q : StateId) : b.nameOf q = a.nameOf q := by
  have read (c : Nfa) : c.nameOf q =
      (((c.states[q]?).map State.bare).map State.name).getD (numbered q) := by
    unfold nameOf
    cases c.states[q]? <;> rfl
  rw [read, read, getElem?_of_bare same]

theorem shown_of_bare (same : b.bare = a.bare) (t : Transition) : b.shown t = a.shown t := by
  have read (c : Nfa) (q : StateId) : c.shownState q =
      (((c.states[q]?).map State.bare).map State.shown).getD (numbered q) := by
    unfold shownState
    cases c.states[q]? <;> rfl
  unfold shown
  rw [read, read, read, read, getElem?_of_bare same, getElem?_of_bare same]

end

end FiniteAutomata.Nfa
