import FiniteAutomata.Proofs.Reachable

/-!
Removing a transition undoes adding it, whatever is done to other transitions in between. The list of
transitions determines the indices of well-formed automata, so it is enough to compare the lists.
-/

namespace FiniteAutomata.Nfa

/-- What an index leaves out of a state, the list of transitions puts back. -/
theorem WellFormed.states_unique {a b : Nfa} (ha : WellFormed a) (hb : WellFormed b)
    (bare : b.bare = a.bare) (listed : b.transitions = a.transitions) : b.states = a.states := by
  refine List.ext_getElem? fun i => ?_
  have same := getElem?_of_bare bare i
  cases foundA : a.states[i]? with
  | none =>
    rw [foundA, Option.map_none, Option.map_eq_none_iff] at same
    exact same
  | some p =>
    rw [foundA, Option.map_some, Option.map_eq_some_iff] at same
    obtain ⟨q, foundB, alike⟩ := same
    have mirrorsA := ha.mirrored p (List.mem_of_getElem? foundA)
    have mirrorsB := hb.mirrored q (List.mem_of_getElem? foundB)
    obtain ⟨i, name, kind, outbound, inbound⟩ := p
    obtain ⟨j, name', kind', outbound', inbound'⟩ := q
    obtain ⟨rfl, rfl, rfl⟩ : j = i ∧ name' = name ∧ kind' = kind := by
      simpa [State.bare] using alike
    rw [listed] at mirrorsB
    obtain rfl : outbound' = outbound := mirrorsB.outbound.unique mirrorsA.outbound
    obtain rfl : inbound' = inbound := mirrorsB.inbound.unique mirrorsA.inbound
    exact foundB

/-- The second automaton lists one transition that the first does not; but for that, the indices that
go with it and the alphabet, they are the same. -/
structure Beside (t : Transition) (a b : Nfa) : Prop where
  before : WellFormed a
  after : WellFormed b
  bare : b.bare = a.bare
  initial : b.initial = a.initial
  listed : t ∈ b.transitions
  rest : b.transitions.erase t = a.transitions

namespace Beside

variable {t u : Transition} {a b : Nfa}

theorem size (h : Beside t a b) : b.size = a.size := size_of_bare h.bare

theorem mem_iff (h : Beside t a b) (other : u ≠ t) : u ∈ b.transitions ↔ u ∈ a.transitions := by
  rw [← h.rest, List.mem_erase_of_ne other]

/-- Without the transition, only the alphabet can differ. -/
theorem excluding (h : Beside t a b) : b.excluding t = { a with alphabet := b.alphabet } := by
  have states : (b.excluding t).states = a.states :=
    h.before.states_unique (h.after.excluding h.listed) ((bare_excluding b t).trans h.bare) h.rest
  have initial : (b.excluding t).initial = a.initial := h.initial
  have transitions : (b.excluding t).transitions = a.transitions := h.rest
  rw [← states, ← initial, ← transitions]
  rfl

theorem including (wellFormed : WellFormed a) (source : t.source < a.size)
    (target : t.target < a.size) (absent : t ∉ a.transitions) : Beside t a (a.including t) where
  before := wellFormed
  after := wellFormed.including source target absent
  bare := bare_including a t
  initial := rfl
  listed := List.mem_append_right _ List.mem_cons_self
  rest := by
    show (a.transitions ++ [t]).erase t = a.transitions
    rw [List.erase_append_right _ absent, List.erase_cons_head, List.append_nil]

/-! ### Edits that do not touch the transition -/

theorem enlarged (h : Beside t a b) {name : String} (free : name ∉ a.states.map State.name)
    (kind : Kind) : Beside t (a.enlarged name kind) (b.enlarged name kind) where
  before := h.before.enlarged free kind
  after := h.after.enlarged (names_of_bare h.bare ▸ free) kind
  bare := by
    have append (c : Nfa) : (c.enlarged name kind).bare =
        c.bare ++ [{ id := c.size, name := name, kind := kind }] := List.map_append
    rw [append, append, h.bare, h.size]
  initial := h.initial
  listed := h.listed
  rest := h.rest

theorem including_both (h : Beside t a b) (source : u.source < a.size) (target : u.target < a.size)
    (absent : u ∉ a.transitions) (other : u ≠ t) : Beside t (a.including u) (b.including u) where
  before := h.before.including source target absent
  after := h.after.including (h.size ▸ source) (h.size ▸ target) (mt (h.mem_iff other).mp absent)
  bare := by rw [bare_including, bare_including, h.bare]
  initial := h.initial
  listed := List.mem_append_left _ h.listed
  rest := by
    show (b.transitions ++ [u]).erase t = a.transitions ++ [u]
    rw [List.erase_append_left _ h.listed, h.rest]

theorem excluding_both (h : Beside t a b) (member : u ∈ a.transitions) (other : u ≠ t) :
    Beside t (a.excluding u) (b.excluding u) where
  before := h.before.excluding member
  after := h.after.excluding ((h.mem_iff other).mpr member)
  bare := by rw [bare_excluding, bare_excluding, h.bare]
  initial := h.initial
  listed := (List.mem_erase_of_ne other.symm).mpr h.listed
  rest := by
    show (b.transitions.erase u).erase t = a.transitions.erase u
    rw [List.erase_comm, h.rest]

theorem promoting (h : Beside t a b) (q : StateId) :
    Beside t (a.promoting q) (b.promoting q) where
  before := h.before.promoting q
  after := h.after.promoting q
  bare := by
    have promote (c : Nfa) : (c.promoting q).bare =
        c.bare.map fun s => if s.id = q then s.promote.1 else s := by
      unfold Nfa.bare Nfa.promoting
      rw [List.map_map, List.map_map]
      refine List.map_congr_left fun s _ => ?_
      show State.bare (if s.id = q then _ else _) = if s.id = q then _ else _
      split <;> rfl
    rw [promote, promote, h.bare]
  initial := h.initial
  listed := h.listed
  rest := h.rest

/-! ### Two runs side by side -/

/-- An edit that answers alike on both sides and leaves them side by side. -/
def Agrees {α : Type} (t : Transition) (edit : Edit Nfa α) : Prop := ∀ a b : Nfa, Beside t a b →
  (edit b).result = (edit a).result ∧ Beside t (edit a).final (edit b).final

theorem Agrees.map {α β : Type} {edit : Edit Nfa α} (h : Agrees t edit) (f : α → β) :
    Agrees t (f <$> edit) := by
  intro a b beside
  obtain ⟨result, final⟩ := h a b beside
  rw [Edit.map_result, Edit.map_result, Edit.map_final, Edit.map_final, result]
  exact ⟨rfl, final⟩

theorem agrees_addState (t : Transition) (name : String) (kind : Kind) :
    Agrees t (addState name kind) := by
  intro a b h
  have names := names_of_bare h.bare
  by_cases taken : name ∈ a.states.map State.name
  · rw [addState_taken taken, addState_taken (names ▸ taken)]
    exact ⟨rfl, h⟩
  · rw [addState_free taken, addState_free (names ▸ taken), h.size]
    exact ⟨rfl, h.enlarged taken kind⟩

theorem agrees_addInitial (t : Transition) (q : StateId) : Agrees t (addInitial q) := by
  intro a b h
  by_cases exist : q < a.size
  · rw [addInitial_of_lt exist, addInitial_of_lt (h.size ▸ exist), h.initial]
    refine ⟨rfl, { h with before := h.before.insert_initial exist, after := ?_, initial := rfl }⟩
    rw [← h.initial]
    exact h.after.insert_initial (h.size ▸ exist)
  · rw [addInitial_of_not_lt exist, addInitial_of_not_lt (h.size ▸ exist)]
    exact ⟨rfl, h⟩

theorem agrees_promote (t : Transition) (q : StateId) : Agrees t (promote q) := by
  intro a b h
  by_cases exist : q < a.size
  · rw [promote_eq h.before exist, promote_eq h.after (h.size ▸ exist), isAccepting_of_bare h.bare]
    exact ⟨rfl, h.promoting q⟩
  · rw [promote_missing exist, promote_missing (h.size ▸ exist)]
    exact ⟨rfl, h⟩

theorem agrees_addTransition (other : u ≠ t) : Agrees t (addTransition u) := by
  intro a b h
  by_cases source : u.source < a.size
  · by_cases target : u.target < a.size
    · by_cases member : u ∈ a.transitions
      · rw [addTransition_present h.before member,
          addTransition_present h.after ((h.mem_iff other).mpr member)]
        exact ⟨rfl, h⟩
      · rw [addTransition_absent h.before source target member,
          addTransition_absent h.after (h.size ▸ source) (h.size ▸ target)
            (mt (h.mem_iff other).mp member)]
        exact ⟨rfl, h.including_both source target member other⟩
    · rw [addTransition_no_target source target,
        addTransition_no_target (h.size ▸ source) (h.size ▸ target)]
      exact ⟨rfl, h⟩
  · rw [addTransition_no_source source, addTransition_no_source (h.size ▸ source)]
    exact ⟨rfl, h⟩

theorem agrees_removeTransition (other : u ≠ t) : Agrees t (removeTransition u) := by
  intro a b h
  by_cases member : u ∈ a.transitions
  · rw [removeTransition_present h.before member,
      removeTransition_present h.after ((h.mem_iff other).mpr member)]
    exact ⟨rfl, h.excluding_both member other⟩
  · rw [removeTransition_absent member, removeTransition_absent (mt (h.mem_iff other).mp member),
      nameOf_of_bare h.bare]
    exact ⟨rfl, h⟩

end Beside

/-- Operations that neither add nor remove the given transition, nor ask for the alphabet. -/
def Operation.spares (t : Transition) : Operation → Bool
  | .addState .. | .addInitial _ | .promote _ => true
  | .addTransition u | .removeTransition u => u ≠ t
  | .addSymbol _ | .eliminateEpsilons | .editState .. => false

theorem Beside.agrees_perform {t : Transition} {op : Operation} (spared : op.spares t) :
    Agrees t (perform op) := by
  cases op with
  | addState name kind => exact (agrees_addState t name kind).map _
  | addInitial q => exact (agrees_addInitial t q).map _
  | promote q => exact (agrees_promote t q).map _
  | addTransition u => exact (agrees_addTransition (of_decide_eq_true spared)).map _
  | removeTransition u => exact (agrees_removeTransition (of_decide_eq_true spared)).map _
  | addSymbol _ => cases spared
  | eliminateEpsilons => cases spared
  | editState _ _ => cases spared

theorem Beside.run {t : Transition} {ops : List Operation} (spared : ∀ op ∈ ops, op.spares t)
    {a b : Nfa} (h : Beside t a b) : answers b ops = answers a ops ∧ Beside t (run a ops) (run b ops) := by
  induction ops generalizing a b with
  | nil => exact ⟨rfl, h⟩
  | cons op rest ih =>
    obtain ⟨result, next⟩ := agrees_perform (spared op List.mem_cons_self) a b h
    obtain ⟨later, final⟩ := ih (fun op member => spared op (List.mem_cons_of_mem _ member)) next
    exact ⟨by rw [answers, answers, result, later], final⟩

/-- Whatever spares a new transition answers as if it had not been added, and leads to the same
automaton after its removal, but for the alphabet. -/
theorem Reachable.removal_undoes {a : Nfa} (h : Reachable a) {t : Transition}
    (source : t.source < a.size) (target : t.target < a.size) (absent : t ∉ a.transitions)
    {ops : List Operation} (spared : ∀ op ∈ ops, op.spares t) :
    ∃ b log c, addTransition t a = ⟨b, log, .ok true⟩ ∧ answers b ops = answers a ops ∧
      removeTransition t (run b ops) = ⟨c, [], .ok ()⟩ ∧
      c = { run a ops with alphabet := c.alphabet } := by
  have start := Beside.including h.wellFormed source target absent
  obtain ⟨alike, beside⟩ := start.run spared
  refine ⟨_, _, _, addTransition_absent h.wellFormed source target absent, alike,
    removeTransition_present beside.after beside.listed, ?_⟩
  rw [beside.excluding]

/-- Transitions at the state of a loop come and go on the symbol of the loop. -/
def meanwhile : List Operation := [
  .addTransition ⟨1, .letter "x", 0⟩, .removeTransition ⟨1, .letter "x", 2⟩,
  .addState "t" .ordinary, .addTransition ⟨4, .letter "x", 1⟩, .addInitial 4, .promote 1,
  .addTransition ⟨1, .letter "x", 9⟩, .removeTransition ⟨1, .letter "y", 1⟩,
  .removeTransition ⟨1, .letter "x", 0⟩]

theorem removal_undoes_loop : ∃ b log c,
    addTransition ⟨1, .letter "x", 1⟩ (run {} detour) = ⟨b, log, .ok true⟩ ∧
      answers b meanwhile = answers (run {} detour) meanwhile ∧
      removeTransition ⟨1, .letter "x", 1⟩ (run b meanwhile) = ⟨c, [], .ok ()⟩ ∧
      c = { run (run {} detour) meanwhile with alphabet := c.alphabet } :=
  Reachable.removal_undoes ⟨detour, by decide, rfl⟩ (by decide) (by decide) (by decide) (by decide)

end FiniteAutomata.Nfa
