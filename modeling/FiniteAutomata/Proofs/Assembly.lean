import FiniteAutomata.Dfa.Indexed
import FiniteAutomata.Nfa.Operation
import FiniteAutomata.Proofs.Interning
import FiniteAutomata.Proofs.Lookup
import Mathlib.Data.List.Nodup

/-!
What deterministic automata look like when states are interned and edges are added in any order. The
list of transitions is the authority on the two indices of each state, the list of states on the
index of all of them. An edge is refused if and only if another one is in its way.
-/

namespace FiniteAutomata.Dfa

variable {d : Dfa} {t : Transition} {m : StateSet}

/-! ### No two edges on one symbol -/

namespace WellFormed

theorem target_unique (h : WellFormed d) {i j k : StateId} {x : Symbol}
    (one : ⟨i, x, j⟩ ∈ d.transitions) (other : ⟨i, x, k⟩ ∈ d.transitions) : j = k := by
  have first := h.successor_eq_some.mpr one
  have second := h.successor_eq_some.mpr other
  exact Option.some.inj (first.symm.trans second)

theorem isDeterministic (h : WellFormed d) : d.isDeterministic := by
  refine decide_eq_true (List.Nodup.map_on ?_ h.distinct)
  rintro ⟨i, x, j⟩ one ⟨i', x', k⟩ other same
  obtain ⟨rfl, rfl⟩ := Prod.mk.inj same
  rw [h.target_unique one other]

/-- An edge is refused while its source has another successor on its symbol. -/
theorem addTransition_refused (h : WellFormed d) {j : StateId}
    (taken : ⟨t.source, t.symbol, j⟩ ∈ d.transitions) (other : j ≠ t.target) :
    addTransition t d =
      ⟨d, [], .error (.secondSuccessor (d.nameOf t.source) t.symbol t.text)⟩ := by
  have absent : t ∉ d.transitions := fun member => other (h.target_unique taken member)
  obtain ⟨q, found⟩ := exists_state (h.ends _ taken).1
  have number : t.source = q.id := (h.numbered _ q found).symm
  have mirrors := h.mirrored q (List.mem_of_getElem? found)
  have used : q.outbound.get? t.symbol = some ⟨t.source, t.symbol, j⟩ :=
    (mirrors.outbound _ _).mpr ⟨taken, number, rfl⟩
  have refused : q.addOutbound t =
      .error (.secondSuccessor (d.nameOf t.source) t.symbol t.text) := by
    rw [State.addOutbound, if_pos number, used, nameOf, found]
    rfl
  refine Edit.bind_of_silent Edit.get_apply ?_
  rw [if_neg absent]
  exact Edit.bind_of_error (by simp only [editState, found, refused])

/-- All that adding an edge can come to. -/
theorem addTransition_cases (h : WellFormed d) (source : t.source < d.size)
    (target : t.target < d.size) :
    (t ∈ d.transitions ∧ addTransition t d = ⟨d, [], .ok false⟩) ∨
    (∃ j, d.successor t.source t.symbol = some j ∧ j ≠ t.target ∧ addTransition t d =
      ⟨d, [], .error (.secondSuccessor (d.nameOf t.source) t.symbol t.text)⟩) ∨
    (d.successor t.source t.symbol = none ∧ addTransition t d = ⟨d.including t, [], .ok true⟩ ∧
      WellFormed (d.including t)) := by
  cases next : d.successor t.source t.symbol with
  | some j =>
    have taken := h.successor_eq_some.mp next
    by_cases same : j = t.target
    · rw [same] at taken
      exact .inl ⟨taken, addTransition_present taken⟩
    · exact .inr (.inl ⟨j, rfl, same, h.addTransition_refused taken same⟩)
  | none =>
    have free : ∀ u ∈ d.transitions, u.source = t.source → u.symbol ≠ t.symbol := by
      rintro ⟨i, x, j⟩ listed rfl rfl
      rw [h.successor_eq_some.mpr listed] at next
      cases next
    exact .inr (.inr ⟨rfl, addTransition_free h source target free, h.including source target free⟩)

theorem inbound_on (h : WellFormed d) {q : State} (member : q ∈ d.states) (x : Symbol) :
    q.inbound.on x = d.transitions.filter fun t => t.target = q.id ∧ t.symbol = x := by
  rw [(h.mirrored q member).inbound.on_eq]
  simp only [Bool.decide_and]

/-- Members tell states apart. -/
theorem find?_iff (h : WellFormed d) {q : State} :
    d.find? m = some q ↔ q ∈ d.states ∧ q.members = m := by
  constructor
  · intro found
    exact ⟨List.mem_of_find?_eq_some found, by simpa using List.find?_some found⟩
  · intro found
    obtain ⟨member, rfl⟩ := found
    cases there : d.find? q.members with
    | none => exact (find?_eq_none there (List.mem_map_of_mem member)).elim
    | some r =>
      have same : r.members = q.members := by simpa using List.find?_some there
      rw [List.inj_on_of_nodup_map h.apart (List.mem_of_find?_eq_some there) member same]

end WellFormed

theorem find?_of_absent (absent : m ∉ d.memberSets) : d.find? m = none :=
  List.find?_eq_none.mpr fun _ listed same =>
    absent (of_decide_eq_true same ▸ List.mem_map_of_mem listed)

/-! ### The index -/

namespace Indexed

variable {s : Indexed} {a : Nfa}

/-- The index leads to the states that there are, by their members. -/
structure Faithful (s : Indexed) : Prop where
  wellFormed : WellFormed s.dfa
  agrees : Agrees s

theorem faithful_emptyFor (a : Nfa) : Faithful (emptyFor a) :=
  ⟨wellFormed_emptyFor a, agrees_emptyFor a⟩

namespace Faithful

/-- The index finds what a look at all states finds. -/
theorem find_eq (h : Faithful s) (m : StateSet) : s.find m = .ok (s.dfa.find? m) := by
  unfold find
  rw [h.agrees]
  cases found : s.dfa.find? m with
  | none => rfl
  | some q =>
    obtain ⟨i, there⟩ := List.mem_iff_getElem?.mp (List.mem_of_find?_eq_some found)
    have looked : s.dfa.state q.id = .ok q := by
      rw [h.wellFormed.numbered i q there, Dfa.state, there]
    show some <$> s.dfa.state q.id = _
    rw [looked]
    rfl

theorem entering (h : Faithful s) (absent : s.dfa.find? m = none) :
    Faithful ⟨s.dfa.entering (.standing s.dfa.size m a), s.index ++ [(m, s.dfa.size)]⟩ where
  wellFormed := h.wellFormed.entering (find?_eq_none absent)
  agrees := h.agrees.entering (.standing s.dfa.size m a)

theorem including (h : Faithful s) (wellFormed : WellFormed (s.dfa.including t)) :
    Faithful { s with dfa := s.dfa.including t } where
  wellFormed := wellFormed
  agrees := h.agrees.of_same List.map_map

/-! ### Every operation keeps it so -/

theorem intern_known (h : Faithful s) {q : State} (found : s.dfa.find? m = some q) :
    intern m a s = ⟨s, [], .ok (q.id, false)⟩ := by
  simp only [Indexed.intern, h.agrees m, found, Option.map_some]

theorem intern_new (h : Faithful s) (absent : s.dfa.find? m = none) (exist : ∀ q ∈ m, q < a.size) :
    intern m a s = ⟨⟨s.dfa.entering (.standing s.dfa.size m a), s.index ++ [(m, s.dfa.size)]⟩, [],
      .ok (s.dfa.size, true)⟩ := by
  simp only [Indexed.intern, h.agrees m, absent, Option.map_none, State.ofMembers_of_lt exist]
  rfl

theorem intern (h : Faithful s) (exist : ∀ q ∈ m, q < a.size) :
    Faithful (intern m a s).final ∧
      (intern m a s).final.dfa = (Dfa.intern m a s.dfa).final ∧
      (intern m a s).result = (Dfa.intern m a s.dfa).result := by
  cases found : s.dfa.find? m with
  | some q =>
    rw [h.intern_known found, Dfa.intern_known found]
    exact ⟨h, rfl, rfl⟩
  | none =>
    rw [h.intern_new found exist, Dfa.intern_new found exist]
    exact ⟨h.entering found, rfl, rfl⟩

theorem addTransition (h : Faithful s) (source : t.source < s.dfa.size)
    (target : t.target < s.dfa.size) : Faithful (addTransition t s).final := by
  unfold Indexed.addTransition
  obtain ⟨_, ran⟩ | ⟨_, _, _, ran⟩ | ⟨_, ran, wellFormed⟩ :=
    h.wellFormed.addTransition_cases source target
  · rw [ran]
    exact h
  · rw [ran]
    exact h
  · rw [ran]
    exact h.including wellFormed

/-- With the index or without it, a possible operation does the same. -/
theorem perform (h : Faithful s) {op : Operation} (possible : op.Possible s.dfa) :
    Faithful (perform op s).final ∧
      (perform op s).final.dfa = (Dfa.perform op s.dfa).final ∧
      (perform op s).result = (Dfa.perform op s.dfa).result := by
  cases op with
  | intern members a =>
    obtain ⟨faithful, final, result⟩ := h.intern possible
    simp only [Indexed.perform, Dfa.perform, Edit.map_final, Edit.map_result]
    exact ⟨faithful, final, congrArg _ result⟩
  | addTransition t =>
    simp only [Indexed.perform, Dfa.perform, Edit.map_final, Edit.map_result]
    exact ⟨h.addTransition possible.1 possible.2, rfl, rfl⟩

theorem run (h : Faithful s) {history : List Operation} (possible : AllPossible s history) :
    Faithful (run s history) ∧ (run s history).dfa = Dfa.run s.dfa history := by
  induction history generalizing s with
  | nil => exact ⟨h, rfl⟩
  | cons op rest ih =>
    obtain ⟨now, later⟩ := possible
    obtain ⟨faithful, same, _⟩ := h.perform now
    obtain ⟨final, ran⟩ := ih faithful later
    refine ⟨final, ran.trans ?_⟩
    rw [same]
    rfl

end Faithful

theorem Assembled.faithful (h : Assembled a s) : Faithful s := by
  obtain ⟨history, possible, rfl⟩ := h
  exact ((faithful_emptyFor a).run possible).1

/-! ### What the views show -/

/-- What interning a set of states answers, and what it changes. -/
structure Interns (s : Indexed) (m : StateSet) (a : Nfa) : Prop where
  known : ∀ q ∈ s.dfa.states, q.members = m → intern m a s = ⟨s, [], .ok (q.id, false)⟩
  new : m ∉ s.dfa.memberSets → intern m a s =
    ⟨⟨s.dfa.entering (.standing s.dfa.size m a), s.index ++ [(m, s.dfa.size)]⟩, [],
      .ok (s.dfa.size, true)⟩

theorem Faithful.interns (h : Faithful s) (exist : ∀ q ∈ m, q < a.size) : Interns s m a where
  known _ member same := h.intern_known (h.wellFormed.find?_iff.mpr ⟨member, same⟩)
  new absent := h.intern_new (find?_of_absent absent) exist

/-- A set with a member that does not exist gets a place in the index but no state, so that it cannot be
looked up from then on. -/
theorem Faithful.intern_missing (h : Faithful s) {q : StateId} (absent : m ∉ s.dfa.memberSets)
    (member : q ∈ m) (missing : a.size ≤ q) :
    ∃ t e, Indexed.intern m a s = ⟨t, [], .error e⟩ ∧ t.dfa = s.dfa ∧
      t.find m = .error (.outOfRange s.dfa.size) := by
  have unknown : s.index.lookup m = none := by rw [h.agrees, find?_of_absent absent, Option.map_none]
  cases made : State.ofMembers s.dfa.size m a with
  | ok q => exact absurd ((State.ofMembers_ok made).2.2 _ member) (Nat.not_lt.mpr missing)
  | error e =>
    let entered : Indexed := { s with index := s.index ++ [(m, s.dfa.size)] }
    have ran : Indexed.intern m a s = ⟨entered, [], .error e⟩ := by
      simp only [Indexed.intern, unknown, made, entered]
    have looked : entered.index.lookup m = some s.dfa.size := by
      rw [List.lookup_append, unknown, Option.none_or, List.lookup_cons_self]
    have outside : s.dfa.states[s.dfa.size]? = none := List.getElem?_eq_none (Nat.le_refl _)
    refine ⟨entered, e, ran, rfl, ?_⟩
    simp only [find, looked, Dfa.state, entered, outside]
    rfl

/-- What adding an edge answers, and what it changes. -/
structure Answers (s : Indexed) (t : Transition) : Prop where
  known : (addTransition t s).result = .ok false ↔ t ∈ s.dfa.transitions
  refused : ∀ e, (addTransition t s).result = .error e ↔
    e = .secondSuccessor (s.dfa.nameOf t.source) t.symbol t.text ∧
      ∃ j, s.dfa.successor t.source t.symbol = some j ∧ j ≠ t.target
  unchanged : (addTransition t s).result ≠ .ok true → (addTransition t s).final = s
  added : (addTransition t s).result = .ok true →
    (addTransition t s).final.dfa.transitions = s.dfa.transitions ++ [t] ∧
      (addTransition t s).final.dfa.bare = s.dfa.bare ∧
      (addTransition t s).final.dfa.alphabet = s.dfa.alphabet ∧
      (addTransition t s).final.index = s.index

theorem Faithful.answers (h : Faithful s) (source : t.source < s.dfa.size)
    (target : t.target < s.dfa.size) : Answers s t := by
  have taken {j : StateId} := h.wellFormed.successor_eq_some (i := t.source) (x := t.symbol) (j := j)
  obtain ⟨member, ran⟩ | ⟨j, next, other, ran⟩ | ⟨free, ran, _⟩ :=
    h.wellFormed.addTransition_cases source target
  case inl =>
    have ran : Indexed.addTransition t s = ⟨s, [], .ok false⟩ := by rw [Indexed.addTransition, ran]
    have next : s.dfa.successor t.source t.symbol = some t.target := taken.mpr member
    constructor <;> simp [ran, member, next]
  case inr.inl =>
    have ran : Indexed.addTransition t s = ⟨s, [],
        .error (.secondSuccessor (s.dfa.nameOf t.source) t.symbol t.text)⟩ := by
      rw [Indexed.addTransition, ran]
    have absent : t ∉ s.dfa.transitions := fun member =>
      other (Option.some.inj (next.symm.trans (taken.mpr member)))
    constructor <;> simp [ran, absent, next, other, eq_comm]
  case inr.inr =>
    have ran : Indexed.addTransition t s =
        ⟨{ s with dfa := s.dfa.including t }, [], .ok true⟩ := by rw [Indexed.addTransition, ran]
    have absent : t ∉ s.dfa.transitions := fun member => by
      rw [taken.mpr member] at free
      cases free
    constructor
    case known => simp [ran, absent]
    case refused => simp [ran, free]
    case unchanged => simp [ran]
    case added =>
      intro _
      rw [ran]
      exact ⟨rfl, bare_including s.dfa t, rfl, rfl⟩

/-- The lists of states and transitions tell what every index holds. -/
structure Consistent (s : Indexed) : Prop where
  numbered : ∀ (i : StateId) (q : State), s.dfa.states[i]? = some q → q.id = i
  apart : s.dfa.memberSets.Nodup
  find : ∀ m, ∃ found, s.find m = .ok found ∧
    ∀ q : State, found = some q ↔ q ∈ s.dfa.states ∧ q.members = m
  distinct : s.dfa.transitions.Nodup
  outbound : ∀ q ∈ s.dfa.states, ∀ x t, q.outbound.get? x = some t ↔
    t ∈ s.dfa.transitions ∧ t.source = q.id ∧ t.symbol = x
  inbound : ∀ q ∈ s.dfa.states, ∀ x, q.inbound.on x =
    s.dfa.transitions.filter fun t => t.target = q.id ∧ t.symbol = x
  deterministic : s.dfa.isDeterministic
  interns : ∀ (m : StateSet) (a : Nfa), (∀ q ∈ m, q < a.size) → Interns s m a
  answers : ∀ t : Transition, t.source < s.dfa.size → t.target < s.dfa.size → Answers s t

/-- Whatever possible operations did, refused ones included, all views agree. -/
theorem Assembled.consistent (h : Assembled a s) : Consistent s where
  numbered := h.faithful.wellFormed.numbered
  apart := h.faithful.wellFormed.apart
  find m := ⟨s.dfa.find? m, h.faithful.find_eq m, fun _ => h.faithful.wellFormed.find?_iff⟩
  distinct := h.faithful.wellFormed.distinct
  outbound q member := (h.faithful.wellFormed.mirrored q member).outbound
  inbound _ member := h.faithful.wellFormed.inbound_on member
  deterministic := h.faithful.wellFormed.isDeterministic
  interns _ _ exist := h.faithful.interns exist
  answers _ source target := h.faithful.answers source target

/-- A set that is interned twice, once from another automaton, an edge that is added twice, one that
is refused and a self loop. -/
def patchwork : List Operation :=
  let a := Nfa.run {} [.addState "p" .ordinary, .addState "q" .accepting]
  let b := Nfa.run {} [.addState "r" .accepting]
  [.intern (.ofList [0]) a, .intern (.ofList [0, 1]) a, .intern (.ofList [0]) b, .intern ∅ b,
    .addTransition ⟨0, .letter "x", 1⟩, .addTransition ⟨0, .letter "x", 1⟩,
    .addTransition ⟨0, .letter "x", 2⟩, .addTransition ⟨1, .letter "y", 1⟩,
    .addTransition ⟨2, .epsilon, 1⟩]

theorem consistent_patchwork : (run (emptyFor {}) patchwork).Consistent :=
  Assembled.consistent ⟨patchwork, by decide, rfl⟩

end Indexed
end FiniteAutomata.Dfa
