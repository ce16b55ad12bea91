import FiniteAutomata.Dfa.Basic
import FiniteAutomata.Worklist

/-!
The subset construction. Starting from the initial states of an automaton without epsilon
transitions, every set of states that is met is expanded once: for each symbol, the targets of the
transitions that leave it form its successor. There are no more sets than subsets of the states. How
the state that stands for a set is found is left open: by a look at all states, or in an index.
-/

namespace FiniteAutomata

namespace Nfa

/-- The targets of the transitions that leave a set of states, symbol by symbol. -/
def images (a : Nfa) (states : StateSet) : SymbolMap StateSet :=
  (states.toList.flatMap a.edgesFrom).foldl
    (fun found t => found.insert t.symbol (((found.get? t.symbol).getD ∅).insert t.target)) ∅

end Nfa

namespace Dfa

/-- Where the construction keeps its automaton, and how it tells which sets have a state. -/
structure Store (σ : Type) where
  view : σ → Dfa
  /-- The state with the given members; the flag tells whether it is new. -/
  intern : StateSet → Nfa → Edit σ (StateId × Bool)
  /-- The flag tells whether the transition is new. -/
  addTransition : Transition → Edit σ Bool
  /-- Every set that was met. -/
  met : σ → List StateSet
  intern_known : ∀ {members a s t log q}, intern members a s = ⟨t, log, .ok (q, false)⟩ →
    met t = met s
  intern_new : ∀ {members a s t log q}, intern members a s = ⟨t, log, .ok (q, true)⟩ →
    members ∉ met s ∧ met t = met s ++ [members] ∧ ∀ p ∈ members, p < a.size
  addTransition_met : ∀ {edge s t log added}, addTransition edge s = ⟨t, log, .ok added⟩ →
    met t = met s

namespace Store

variable {σ : Type} (store : Store σ)

/-- Adds an edge from a state to each image, and returns the states that are new. -/
def connect (a : Nfa) (source : StateId) : List (Symbol × StateSet) → Edit σ (List StateId)
  | [] => pure []
  | (x, members) :: rest => do
    let target ← store.intern members a
    Edit.emitIf target.2 fun s => .discovered ((store.view s).shownState target.1)
    let added ← store.addTransition ⟨source, x, target.1⟩
    Edit.emitIf added fun s => .added ((store.view s).shown ⟨source, x, target.1⟩)
    let more ← connect a source rest
    return if target.2 then target.1 :: more else more

def expand (a : Nfa) (source : StateId) : Edit σ (List StateId) := do
  store.connect a source (a.images ((store.view (← Edit.get)).members source)).entries

/-! ### Each subset is met at most once -/

/-- How many sets of the first `n` states are not met yet. -/
def unmet (n : Nat) (s : σ) : Nat :=
  (StateSet.sublists 0 n).countP (· ∉ (store.met s).map (·.toList))

variable {store} {a : Nfa} {source : StateId} {s t : σ} {log : List Event} {fresh : List StateId}

/-- Each new state stands for a set that was not met before. -/
theorem connect_ok {images : List (Symbol × StateSet)}
    (ok : store.connect a source images s = ⟨t, log, .ok fresh⟩) :
    ∃ new : List StateSet, new.length = fresh.length ∧ store.met t = store.met s ++ new ∧
      new.Nodup ∧ ∀ m ∈ new, m ∉ store.met s ∧ ∀ q ∈ m, q < a.size := by
  induction images generalizing s t log fresh with
  | nil =>
    obtain ⟨rfl, _, rfl⟩ := Edit.pure_ok.mp ok
    exact ⟨[], rfl, (List.append_nil _).symm, .nil, by simp⟩
  | cons image rest ih =>
    obtain ⟨x, members⟩ := image
    simp only [connect, Edit.bind_ok, Edit.emitIf_ok, Edit.pure_ok] at ok
    obtain ⟨_, _, ⟨q, isNew⟩, _, interned, ⟨_, _, _, _, ⟨rfl, _⟩, ⟨_, _, _, _, added,
      ⟨_, _, _, _, ⟨rfl, _⟩, ⟨_, _, more, _, later, ⟨rfl, _, rfl⟩, _⟩, _⟩, _⟩, _⟩, _⟩ := ok
    obtain ⟨new, length, grown, distinct, unmet⟩ := ih later
    rw [store.addTransition_met added] at grown unmet
    cases isNew with
    | false =>
      rw [store.intern_known interned] at grown unmet
      exact ⟨new, length, grown, distinct, unmet⟩
    | true =>
      obtain ⟨absent, entered, bounds⟩ := store.intern_new interned
      rw [entered] at grown unmet
      refine ⟨members :: new, by simp [length], by simpa using grown, ?_, fun m member => ?_⟩
      · refine List.nodup_cons.mpr ⟨fun again => (unmet members again).1 ?_, distinct⟩
        exact List.mem_append_right _ List.mem_cons_self
      · rcases List.mem_cons.mp member with rfl | member
        · exact ⟨absent, bounds⟩
        · obtain ⟨unmet, bounds⟩ := unmet m member
          exact ⟨fun met => unmet (List.mem_append_left _ met), bounds⟩

theorem expand_ok (ok : store.expand a source s = ⟨t, log, .ok fresh⟩) :
    store.connect a source (a.images ((store.view s).members source)).entries s =
      ⟨t, log, .ok fresh⟩ := by
  simp only [expand, Edit.bind_ok, Edit.get_ok] at ok
  obtain ⟨_, _, _, _, ⟨rfl, rfl, rfl⟩, ok, rfl⟩ := ok
  exact ok

theorem met_of_kept (kept : ∀ m ∈ store.met s, m ∈ store.met t) (l : List StateId) :
    decide (l ∉ (store.met t).map (·.toList)) → decide (l ∉ (store.met s).map (·.toList)) := by
  simp only [decide_eq_true_eq, List.mem_map]
  rintro absent ⟨m, hm, rfl⟩
  exact absent ⟨m, kept m hm, rfl⟩

theorem unmet_add_length_le (ok : store.expand a source s = ⟨t, log, .ok fresh⟩) :
    store.unmet a.size t + fresh.length ≤ store.unmet a.size s := by
  obtain ⟨new, length, grown, distinct, unmet⟩ := connect_ok (expand_ok ok)
  have lists : (new.map (·.toList)).Nodup := by
    apply List.pairwise_map.mpr
    exact distinct.imp fun differ same => differ (StateSet.toList_injective same)
  rw [← length, ← List.length_map (·.toList)]
  refine countP_add_length_le (met_of_kept fun m met => ?_) lists fun l member => ?_
  · rw [grown]
    exact List.mem_append_left _ met
  · obtain ⟨m, entered, rfl⟩ := List.mem_map.mp member
    obtain ⟨unmet, bounds⟩ := unmet m entered
    refine ⟨StateSet.mem_sublists m.ascending fun q hq => ⟨Nat.zero_le q, ?_⟩, ?_, ?_⟩
    · simpa using bounds q hq
    · simp only [decide_eq_true_eq, List.mem_map]
      rintro ⟨n, met, same⟩
      exact unmet (StateSet.toList_injective same ▸ met)
    · simpa using ⟨m, by simp [grown, entered], rfl⟩

theorem unmet_le (ok : store.expand a source s = ⟨t, log, .ok fresh⟩) :
    store.unmet a.size t ≤ store.unmet a.size s := by
  have := unmet_add_length_le ok
  omega

theorem unmet_lt (ok : store.expand a source s = ⟨t, log, .ok fresh⟩) (some : fresh ≠ []) :
    store.unmet a.size t < store.unmet a.size s := by
  have := unmet_add_length_le ok
  have := List.length_pos_iff.mpr some
  omega

variable (store)

def expansion (a : Nfa) : Worklist σ StateId where
  step := store.expand a
  valid _ := True
  bound := store.unmet a.size
  keeps _ _ := trivial
  bound_le _ := unmet_le
  bound_lt _ := unmet_lt

def expandAll (a : Nfa) (start : StateId) : Edit σ Unit := fun s =>
  (store.expansion a).run [start] s trivial

/-- Fails if the automaton has epsilon transitions. -/
def construct (a : Nfa) : Edit σ Unit :=
  if a.isEpsilonFree then do
    let start ← store.intern a.initial a
    store.expandAll a start.1
    let d := store.view (← Edit.get)
    Edit.emit (.determinized d.size d.transitions.length a.size)
  else Edit.fail (.hasEpsilon a.epsilonTransitions.length)

end Store

/-! ### By a look at all states -/

def memberSets (d : Dfa) : List StateSet := d.states.map (·.members)

theorem State.lt_size_of_statesAt {a : Nfa} {l : List StateId} {states : List Nfa.State}
    (ok : statesAt a l = .ok states) : ∀ q ∈ l, q < a.size := by
  induction l generalizing states with
  | nil => simp
  | cons p l ih =>
    simp only [statesAt, bind, Except.bind, pure, Except.pure, Nfa.state] at ok
    intro q hq
    cases found : a.states[p]? with
    | none => simp [found] at ok
    | some state =>
      rw [found] at ok
      cases rest : statesAt a l with
      | error e => simp [rest] at ok
      | ok others =>
        rcases List.mem_cons.mp hq with rfl | hq
        · exact (List.getElem?_eq_some_iff.mp found).1
        · exact ih rest q hq

theorem State.ofMembers_ok {id : StateId} {members : StateSet} {a : Nfa} {state : State}
    (ok : ofMembers id members a = .ok state) :
    state.id = id ∧ state.members = members ∧ ∀ q ∈ members, q < a.size := by
  simp only [ofMembers, bind, Except.bind] at ok
  split at ok
  · cases ok
  · rename_i states found
    cases ok
    exact ⟨rfl, rfl, lt_size_of_statesAt found⟩

theorem intern_ok {members : StateSet} {a : Nfa} {d e : Dfa} {log : List Event}
    {found : StateId × Bool} (ok : intern members a d = ⟨e, log, .ok found⟩) :
    log = [] ∧ ((∃ state, d.find? members = some state ∧ e = d ∧ found = (state.id, false)) ∨
      d.find? members = none ∧ found = (d.size, true) ∧ ∃ state,
        State.ofMembers d.size members a = .ok state ∧
        e = { d with states := d.states ++ [state] }) := by
  simp only [intern] at ok
  split at ok
  · rename_i state there
    cases ok
    exact ⟨rfl, .inl ⟨state, there, rfl, rfl⟩⟩
  · rename_i absent
    split at ok
    · rename_i state made
      cases ok
      exact ⟨rfl, .inr ⟨absent, rfl, state, made, rfl⟩⟩
    · cases ok

theorem editState_ok {q : StateId} {f : State → Except Error State} {d e : Dfa}
    {log : List Event} (ok : editState q f d = ⟨e, log, .ok ()⟩) :
    log = [] ∧ ∃ old new, d.states[q]? = some old ∧ f old = .ok new ∧
      e = { d with states := d.states.set q new } := by
  simp only [editState] at ok
  split at ok
  · simp at ok
  · rename_i old found
    split at ok
    · rename_i new made
      cases ok
      exact ⟨rfl, old, new, found, made, rfl⟩
    · simp at ok

theorem State.addOutbound_ok {t : Transition} {old new : State} (h : old.addOutbound t = .ok new) :
    new = { old with outbound := old.outbound.insert t.symbol t } := by
  simp only [addOutbound] at h
  split at h
  · split at h <;> cases h
    rfl
  · cases h

theorem State.addInbound_ok {t : Transition} {old new : State} (h : old.addInbound t = .ok new) :
    new = { old with inbound := old.inbound.attach t } := by
  simp only [addInbound] at h
  split at h <;> cases h
  rfl

/-- Whatever does not depend on the indices of a state stays. -/
theorem map_states_editState {α : Type} (g : State → α) {q : StateId} {f : State → Except Error State}
    {d e : Dfa} {log : List Event} (ok : editState q f d = ⟨e, log, .ok ()⟩)
    (same : ∀ old new, f old = .ok new → g new = g old) : e.states.map g = d.states.map g := by
  obtain ⟨_, old, new, found, made, rfl⟩ := editState_ok ok
  have h := same old new made
  simp only [List.map_set, h]
  refine List.ext_getElem? fun i => ?_
  rw [List.getElem?_set]
  split
  · rename_i here
    subst here
    obtain ⟨lt, rfl⟩ := List.getElem?_eq_some_iff.mp found
    simp [lt]
  · rfl

theorem map_states_addTransition {α : Type} (g : State → α)
    (same : ∀ q outbound inbound, g { q with outbound := outbound, inbound := inbound } = g q)
    {t : Transition} {d e : Dfa} {log : List Event} {added : Bool}
    (ok : addTransition t d = ⟨e, log, .ok added⟩) : e.states.map g = d.states.map g := by
  simp only [addTransition, Edit.bind_ok] at ok
  obtain ⟨_, _, _, _, got, ok, rfl⟩ := ok
  obtain ⟨rfl, rfl, rfl⟩ := Edit.get_ok.mp got
  split at ok
  · obtain ⟨rfl, _, _⟩ := Edit.pure_ok.mp ok
    rfl
  · simp only [Edit.bind_ok, Edit.modify_ok, Edit.pure_ok] at ok
    obtain ⟨_, _, _, _, left, ⟨_, _, _, _, entered, ⟨_, _, _, _, ⟨rfl, rfl⟩, ⟨rfl, _, _⟩, _⟩,
      _⟩, _⟩ := ok
    have h₁ := map_states_editState g left fun old new made => by rw [State.addOutbound_ok made, same]
    have h₂ := map_states_editState g entered fun old new made => by rw [State.addInbound_ok made, same]
    exact h₂.trans h₁

def scan : Store Dfa where
  view d := d
  intern := intern
  addTransition := addTransition
  met := memberSets
  intern_known ok := by
    obtain ⟨_, ⟨_, _, rfl, _⟩ | ⟨_, found, _⟩⟩ := intern_ok ok
    · rfl
    · cases found
  intern_new ok := by
    obtain ⟨_, ⟨_, _, _, found⟩ | ⟨absent, _, state, made, rfl⟩⟩ := intern_ok ok
    · cases found
    obtain ⟨_, rfl, bounds⟩ := State.ofMembers_ok made
    refine ⟨fun met => ?_, List.map_append, bounds⟩
    obtain ⟨q, listed, same⟩ := List.mem_map.mp met
    exact List.find?_eq_none.mp absent q listed (decide_eq_true same)
  addTransition_met ok := map_states_addTransition State.members (fun _ _ _ => rfl) ok

abbrev connect (a : Nfa) (source : StateId) := scan.connect a source

theorem connect_cons (a : Nfa) (source : StateId) (x : Symbol) (members : StateSet)
    (rest : List (Symbol × StateSet)) : connect a source ((x, members) :: rest) = do
      let target ← intern members a
      Edit.emitIf target.2 fun d => .discovered (d.shownState target.1)
      let added ← addTransition ⟨source, x, target.1⟩
      Edit.emitIf added fun d => .added (d.shown ⟨source, x, target.1⟩)
      let more ← connect a source rest
      return if target.2 then target.1 :: more else more := rfl

abbrev expand (a : Nfa) (source : StateId) := scan.expand a source

abbrev expansion (a : Nfa) : Worklist Dfa StateId := scan.expansion a

abbrev expandAll (a : Nfa) (start : StateId) : Edit Dfa Unit := scan.expandAll a start

abbrev construct (a : Nfa) : Edit Dfa Unit := scan.construct a

theorem construct_eq (a : Nfa) : construct a =
    if a.isEpsilonFree then do
      let start ← intern a.initial a
      expandAll a start.1
      let d ← Edit.get
      Edit.emit (.determinized d.size d.transitions.length a.size)
    else Edit.fail (.hasEpsilon a.epsilonTransitions.length) := rfl

end Dfa
end FiniteAutomata
