import FiniteAutomata.Dfa.Subset
import FiniteAutomata.Proofs.Index

/-!
The representation invariant of deterministic automata, and what interning a set and adding an edge
make of them. No two states have the same members, so the members tell where an edge leads.
-/

namespace FiniteAutomata.Dfa

/-- The outbound index holds the listed transition on each symbol, if there is one, and the inbound
index all that enter the state. -/
structure State.Mirrors (q : State) (listed : List Transition) : Prop where
  outbound : ∀ x t, q.outbound.get? x = some t ↔ t ∈ listed ∧ t.source = q.id ∧ t.symbol = x
  inbound : q.inbound.Lists (·.target = q.id) listed

structure WellFormed (d : Dfa) : Prop where
  numbered : Numbered State.id d.states
  apart : d.memberSets.Nodup
  mirrored : ∀ q ∈ d.states, q.Mirrors d.transitions
  distinct : d.transitions.Nodup
  ends : ∀ t ∈ d.transitions, t.source < d.size ∧ t.target < d.size

theorem wellFormed_emptyFor (a : Nfa) : WellFormed (emptyFor a) where
  numbered _ _ found := by cases found
  apart := .nil
  mirrored _ member := by cases member
  distinct := .nil
  ends _ member := by cases member

variable {d : Dfa} {i j : StateId} {x : Symbol}

theorem exists_state (exist : i < d.size) : ∃ q, d.states[i]? = some q :=
  ⟨_, List.getElem?_eq_getElem exist⟩

theorem members_of_found {q : State} (found : d.states[i]? = some q) : d.members i = q.members := by
  rw [members, found]

theorem getElem?_memberSets (exist : i < d.size) : d.memberSets[i]? = some (d.members i) := by
  obtain ⟨q, found⟩ := exists_state exist
  rw [memberSets, List.getElem?_map, found, members_of_found found]
  rfl

theorem find?_eq_none {m : StateSet} (absent : d.find? m = none) : m ∉ d.memberSets := by
  intro member
  obtain ⟨q, there, same⟩ := List.mem_map.mp member
  exact List.find?_eq_none.mp absent q there (decide_eq_true same)

namespace WellFormed

theorem members_injective (h : WellFormed d) (hi : i < d.size) (hj : j < d.size)
    (same : d.members i = d.members j) : i = j := by
  have bound : i < d.memberSets.length := by
    rw [memberSets, List.length_map]
    exact hi
  refine (List.getElem?_inj bound h.apart).mp ?_
  rw [getElem?_memberSets hi, getElem?_memberSets hj, same]

theorem find?_eq_some (h : WellFormed d) {m : StateSet} {q : State} (found : d.find? m = some q) :
    q.id < d.size ∧ d.members q.id = m := by
  obtain ⟨i, there⟩ := List.mem_iff_getElem?.mp (List.mem_of_find?_eq_some found)
  have number : q.id = i := h.numbered i q there
  rw [number, members_of_found there]
  exact ⟨(List.getElem?_eq_some_iff.mp there).1, by simpa using List.find?_some found⟩

theorem successor_eq_some (h : WellFormed d) :
    d.successor i x = some j ↔ ⟨i, x, j⟩ ∈ d.transitions := by
  unfold successor
  cases found : d.states[i]? with
  | none =>
    have missing : ¬ i < d.size := Nat.not_lt.mpr (List.getElem?_eq_none_iff.mp found)
    constructor
    · intro impossible
      cases impossible
    · intro member
      exact (missing (h.ends ⟨i, x, j⟩ member).1).elim
  | some q =>
    have mirrors := h.mirrored q (List.mem_of_getElem? found)
    have number : q.id = i := h.numbered i q found
    show (q.outbound.get? x).map (·.target) = some j ↔ _
    rw [Option.map_eq_some_iff]
    constructor
    · intro found
      obtain ⟨⟨source, symbol, target⟩, there, rfl⟩ := found
      obtain ⟨member, rfl, rfl⟩ := (mirrors.outbound x _).mp there
      rw [← number]
      exact member
    · intro member
      exact ⟨_, (mirrors.outbound x _).mpr ⟨member, number.symm, rfl⟩, rfl⟩

end WellFormed

/-! ### States without their indices -/

/-- What is left of a state when its transitions are put aside. -/
def State.bare (q : State) : State := { q with outbound := ∅, inbound := ∅ }

def bare (d : Dfa) : List State := d.states.map State.bare

theorem memberSets_eq (d : Dfa) : d.memberSets = d.bare.map State.members := by
  unfold memberSets bare
  rw [List.map_map]
  rfl

theorem members_eq (d : Dfa) (i : StateId) : d.members i = (d.memberSets[i]?).getD ∅ := by
  unfold members memberSets
  rw [List.getElem?_map]
  cases d.states[i]? <;> rfl

theorem size_eq (d : Dfa) : d.size = d.memberSets.length := (List.length_map _).symm

/-! ### Interned sets -/

/-- The state that stands for a set of states of an automaton. -/
def State.standing (id : StateId) (members : StateSet) (a : Nfa) : State where
  id := id
  members := members
  name := nameOfMembers (members.toList.map a.nameOf)
  kind := .ofAccepting (members.any a.isAccepting)

theorem State.statesAt_of_lt {a : Nfa} {l : List StateId} (exist : ∀ q ∈ l, q < a.size) :
    ∃ states, statesAt a l = .ok states ∧ states.map Nfa.State.name = l.map a.nameOf ∧
      states.any Nfa.State.isAccepting = l.any a.isAccepting := by
  induction l with
  | nil => exact ⟨[], rfl, rfl, rfl⟩
  | cons q rest ih =>
    obtain ⟨states, looked, names, accepts⟩ := ih fun p hp => exist p (List.mem_cons_of_mem q hp)
    obtain ⟨state, found⟩ : ∃ state, a.states[q]? = some state :=
      ⟨_, List.getElem?_eq_getElem (exist q List.mem_cons_self)⟩
    refine ⟨state :: states, ?_, ?_, ?_⟩
    · rw [statesAt, Nfa.state, found, looked]
      rfl
    · rw [List.map_cons, List.map_cons, names, Nfa.nameOf, found]
    · rw [List.any_cons, List.any_cons, accepts, Nfa.isAccepting, found]

theorem State.ofMembers_of_lt {a : Nfa} {id : StateId} {m : StateSet}
    (exist : ∀ q ∈ m, q < a.size) : ofMembers id m a = .ok (standing id m a) := by
  obtain ⟨states, looked, names, accepts⟩ := statesAt_of_lt exist
  rw [ofMembers, looked]
  show Except.ok _ = _
  rw [names, accepts]
  rfl

/-- With one state at the end. -/
def entering (d : Dfa) (q : State) : Dfa := { d with states := d.states ++ [q] }

theorem intern_known {a : Nfa} {m : StateSet} {q : State} (found : d.find? m = some q) :
    intern m a d = ⟨d, [], .ok (q.id, false)⟩ := by
  simp only [intern, found]

theorem intern_new {a : Nfa} {m : StateSet} (absent : d.find? m = none)
    (exist : ∀ q ∈ m, q < a.size) :
    intern m a d = ⟨d.entering (.standing d.size m a), [], .ok (d.size, true)⟩ := by
  simp only [intern, absent, State.ofMembers_of_lt exist]
  rfl

theorem memberSets_entering (d : Dfa) (q : State) :
    (d.entering q).memberSets = d.memberSets ++ [q.members] := List.map_append

theorem size_entering (d : Dfa) (q : State) : (d.entering q).size = d.size + 1 :=
  List.length_append

theorem WellFormed.entering (h : WellFormed d) {a : Nfa} {m : StateSet} (absent : m ∉ d.memberSets) :
    WellFormed (d.entering (.standing d.size m a)) where
  numbered := h.numbered.append rfl
  apart := by
    rw [memberSets_entering]
    exact nodup_concat h.apart absent
  mirrored q member := by
    rcases List.mem_append.mp member with old | new
    · exact h.mirrored q old
    obtain rfl := List.mem_singleton.mp new
    constructor
    · intro x t
      constructor
      · intro found
        cases found
      · intro found
        obtain ⟨listed, here, _⟩ := found
        exact absurd here (Nat.ne_of_lt (h.ends t listed).1)
    · refine .empty fun t listed here => ?_
      exact absurd (of_decide_eq_true here) (Nat.ne_of_lt (h.ends t listed).2)
  distinct := h.distinct
  ends t member := by
    rw [size_entering]
    exact ⟨Nat.lt_succ_of_lt (h.ends t member).1, Nat.lt_succ_of_lt (h.ends t member).2⟩

/-! ### Added edges -/

def State.attachOutbound (t : Transition) (q : State) : State :=
  { q with outbound := if t.source = q.id then q.outbound.insert t.symbol t else q.outbound }

def State.attachInbound (t : Transition) (q : State) : State :=
  { q with inbound := if t.target = q.id then q.inbound.attach t else q.inbound }

theorem State.Mirrors.attach {q : State} {listed : List Transition} {t : Transition}
    (h : q.Mirrors listed) (free : ∀ u ∈ listed, u.source = t.source → u.symbol ≠ t.symbol) :
    ((q.attachOutbound t).attachInbound t).Mirrors (listed ++ [t]) where
  outbound x u := by
    show SymbolMap.get? (if t.source = q.id then q.outbound.insert t.symbol t else q.outbound) x
      = some u ↔ u ∈ listed ++ [t] ∧ u.source = q.id ∧ u.symbol = x
    rw [List.mem_append, List.mem_singleton]
    by_cases here : t.source = q.id
    · rw [if_pos here, SymbolMap.get?_insert]
      by_cases same : x = t.symbol
      · subst same
        rw [if_pos rfl, Option.some.injEq]
        constructor
        · rintro rfl
          exact ⟨.inr rfl, here, rfl⟩
        · intro found
          obtain ⟨old | new, source, symbol⟩ := found
          · exact (free u old (source.trans here.symm) symbol).elim
          · exact new.symm
      · rw [if_neg same, h.outbound]
        constructor
        · intro found
          obtain ⟨old, rest⟩ := found
          exact ⟨.inl old, rest⟩
        · intro found
          obtain ⟨old | rfl, source, symbol⟩ := found
          · exact ⟨old, source, symbol⟩
          · exact absurd symbol.symm same
    · rw [if_neg here, h.outbound]
      constructor
      · intro found
        obtain ⟨old, rest⟩ := found
        exact ⟨.inl old, rest⟩
      · intro found
        obtain ⟨old | rfl, source, symbol⟩ := found
        · exact ⟨old, source, symbol⟩
        · exact absurd source here
  inbound := by
    show Adjacency.Lists (if t.target = q.id then q.inbound.attach t else q.inbound) _ _
    split
    · rename_i here
      exact h.inbound.attach (decide_eq_true here)
    · rename_i other
      exact h.inbound.append_other (by simpa using other)

/-- With one more edge. -/
def including (d : Dfa) (t : Transition) : Dfa :=
  { d with
    states := d.states.map fun q => (q.attachOutbound t).attachInbound t
    transitions := d.transitions ++ [t] }

theorem size_including (d : Dfa) (t : Transition) : (d.including t).size = d.size :=
  List.length_map _

theorem memberSets_including (d : Dfa) (t : Transition) :
    (d.including t).memberSets = d.memberSets := by
  unfold memberSets including
  rw [List.map_map]
  rfl

theorem bare_including (d : Dfa) (t : Transition) : (d.including t).bare = d.bare := by
  unfold bare including
  rw [List.map_map]
  rfl

theorem WellFormed.including (h : WellFormed d) {t : Transition} (source : t.source < d.size)
    (target : t.target < d.size)
    (free : ∀ u ∈ d.transitions, u.source = t.source → u.symbol ≠ t.symbol) :
    WellFormed (d.including t) where
  numbered := h.numbered.map fun _ => rfl
  apart := by
    rw [memberSets_including]
    exact h.apart
  mirrored q member := by
    obtain ⟨old, there, rfl⟩ := List.mem_map.mp member
    exact (h.mirrored old there).attach free
  distinct := nodup_concat h.distinct fun listed => free t listed rfl rfl
  ends u member := by
    rw [size_including]
    rcases List.mem_append.mp member with old | fresh
    · exact h.ends u old
    · rw [List.mem_singleton.mp fresh]
      exact ⟨source, target⟩

theorem editState_map {f : State → Except Error State} {g : State → State}
    (numbered : Numbered State.id d.states) (exist : i < d.size)
    (here : ∀ s ∈ d.states, s.id = i → f s = .ok (g s)) (elsewhere : ∀ s, s.id ≠ i → g s = s) :
    editState i f d = ⟨{ d with states := d.states.map g }, [], .ok ()⟩ := by
  obtain ⟨old, found⟩ := exists_state exist
  have edited := here old (List.mem_of_getElem? found) (numbered i old found)
  simp only [editState, found, edited, numbered.set_eq_map found elsewhere]

theorem addTransition_present {t : Transition} (member : t ∈ d.transitions) :
    addTransition t d = ⟨d, [], .ok false⟩ := by
  refine Edit.bind_of_silent Edit.get_apply ?_
  rw [if_pos member]
  rfl

theorem addTransition_free (h : WellFormed d) {t : Transition} (source : t.source < d.size)
    (target : t.target < d.size)
    (free : ∀ u ∈ d.transitions, u.source = t.source → u.symbol ≠ t.symbol) :
    addTransition t d = ⟨d.including t, [], .ok true⟩ := by
  let left : Dfa := { d with states := d.states.map (State.attachOutbound t) }
  have leave : editState t.source (·.addOutbound t) d = ⟨left, [], .ok ()⟩ := by
    refine editState_map h.numbered source (fun s there here => ?_) fun s other => ?_
    · have unused : s.outbound.get? t.symbol = none := by
        refine Option.eq_none_iff_forall_not_mem.mpr fun u found => ?_
        obtain ⟨listed, from_s, on_symbol⟩ := ((h.mirrored s there).outbound t.symbol u).mp found
        exact free u listed (from_s.trans here) on_symbol
      simp only [State.addOutbound, State.attachOutbound, here, if_true, unused, Option.isSome_none,
        Bool.false_eq_true, if_false]
    · simp only [State.attachOutbound, if_neg (Ne.symm other)]
  have entered : editState t.target (·.addInbound t) left =
      ⟨{ left with states := left.states.map (State.attachInbound t) }, [], .ok ()⟩ := by
    refine editState_map (h.numbered.map fun _ => rfl) ?_ (fun s _ here => ?_) fun s other => ?_
    · simpa only [size, left, List.length_map] using target
    · simp only [State.addInbound, State.attachInbound, here, if_true]
    · simp only [State.attachInbound, if_neg (Ne.symm other)]
  have absent : t ∉ d.transitions := fun member => free t member rfl rfl
  have states : left.states.map (State.attachInbound t) = (d.including t).states := List.map_map
  rw [states] at entered
  refine Edit.bind_of_silent Edit.get_apply ?_
  rw [if_neg absent]
  exact Edit.bind_of_silent leave (Edit.bind_of_silent entered rfl)

/-- The edge is there afterwards, if no other one is in its way. -/
theorem addTransition_succeeds (h : WellFormed d) (source : i < d.size) (target : j < d.size)
    (only : ∀ k, ⟨i, x, k⟩ ∈ d.transitions → k = j) :
    ∃ e, addTransition ⟨i, x, j⟩ d = ⟨e, [], .ok (decide (⟨i, x, j⟩ ∉ d.transitions))⟩ ∧
      WellFormed e ∧ e.bare = d.bare ∧ e.alphabet = d.alphabet ∧
      e.transitions = enlist d.transitions ⟨i, x, j⟩ := by
  by_cases member : ⟨i, x, j⟩ ∈ d.transitions
  · refine ⟨d, ?_, h, rfl, rfl, (if_pos member).symm⟩
    rw [addTransition_present member, decide_eq_false fun absent => absent member]
  · have free : ∀ u ∈ d.transitions, u.source = i → u.symbol ≠ x := by
      rintro ⟨source, symbol, k⟩ listed rfl rfl
      exact member (only k listed ▸ listed)
    refine ⟨d.including ⟨i, x, j⟩, ?_, h.including source target free, bare_including d _, rfl,
      (if_neg member).symm⟩
    rw [addTransition_free h source target free, decide_eq_true member]

end FiniteAutomata.Dfa
