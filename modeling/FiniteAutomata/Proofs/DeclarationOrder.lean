import FiniteAutomata.Proofs.Naming
import FiniteAutomata.Proofs.Numbering
import FiniteAutomata.Text.Listing

/-!
The order in which states and transitions are declared does not matter. What elimination makes of an
automaton can be told by names alone, and so can the sets that words lead to. Determinization numbers
its states by words, so there even the numbers are the same.
-/

namespace FiniteAutomata

variable {m k l : Named} {names : Finset String} {n : String} {x : Symbol}

/-! ### Elimination by name -/

/-- What elimination makes of an automaton, by name. -/
structure Named.Eliminates (m k : Named) : Prop where
  states : ∀ n kind, (n, kind) ∈ k.states ↔ (∃ before, (n, before) ∈ m.states) ∧
    (kind = .accepting ↔ ∃ f, (f, .accepting) ∈ m.states ∧ m.EpsilonPath n f)
  initial : ∀ n, n ∈ k.initial ↔ ∃ o ∈ m.initial, m.EpsilonPath o n
  edges : ∀ n x o, ⟨n, x, o⟩ ∈ k.edges ↔
    x ≠ .epsilon ∧ ∃ p, ⟨n, x, p⟩ ∈ m.edges ∧ m.EpsilonPath p o

theorem Named.Eliminates.unique (h : m.Eliminates k) (h' : m.Eliminates l) : k = l := by
  apply Named.ext
  · ext ⟨n, kind⟩
    rw [h.states, h'.states]
  · ext n
    rw [h.initial, h'.initial]
  · ext ⟨n, x, o⟩
    rw [h.edges, h'.edges]

namespace Nfa

variable {a b : Nfa} {states : StateSet} {q : StateId}

theorem WellFormed.reaches_accepting (h : WellFormed a) (exist : q < a.size) :
    (∃ f, (f, .accepting) ∈ a.named.states ∧ a.named.EpsilonPath (a.nameOf q) f) ↔
      ∃ f, a.isAccepting f ∧ a.EpsilonPath q f := by
  constructor
  · rintro ⟨n, accepting, path⟩
    obtain ⟨f, steps, rfl⟩ := (h.named_epsilonPath exist).mp path
    exact ⟨f, (h.accepting_mem_states (h.epsilonPath_lt exist steps)).mp accepting, steps⟩
  · rintro ⟨f, accepts, path⟩
    have there := (h.accepting_mem_states (h.epsilonPath_lt exist path)).mpr accepts
    exact ⟨a.nameOf f, there, (h.named_epsilonPath exist).mpr ⟨f, path, rfl⟩⟩

theorem Eliminates.named (e : Eliminates a b) (h : WellFormed a) : a.named.Eliminates b.named := by
  have nameOf := nameOf_of_roster e.roster
  constructor
  case states =>
    intro n kind
    rw [mem_states, size_of_roster e.roster, nameOf]
    simp only [e.accepting]
    constructor
    · rintro ⟨q, exist, rfl, accepting⟩
      refine ⟨⟨.ofAccepting (a.isAccepting q), mem_states.mpr ⟨q, exist, rfl, ?_⟩⟩, ?_⟩
      · cases a.isAccepting q <;> simp [Kind.ofAccepting]
      · rw [accepting, h.reaches_accepting exist]
    · rintro ⟨⟨before, there⟩, accepting⟩
      obtain ⟨q, exist, rfl, _⟩ := mem_states.mp there
      refine ⟨q, exist, rfl, ?_⟩
      rw [accepting, h.reaches_accepting exist]
  case initial =>
    intro n
    rw [mem_initial, nameOf]
    constructor
    · rintro ⟨q, member, rfl⟩
      obtain ⟨p, start, path⟩ := (e.initial q).mp member
      exact ⟨a.nameOf p, mem_initial.mpr ⟨p, start, rfl⟩,
        (h.named_epsilonPath (h.starts p start)).mpr ⟨q, path, rfl⟩⟩
    · rintro ⟨o, there, path⟩
      obtain ⟨p, start, rfl⟩ := mem_initial.mp there
      obtain ⟨q, steps, rfl⟩ := (h.named_epsilonPath (h.starts p start)).mp path
      exact ⟨q, (e.initial q).mpr ⟨p, start, steps⟩, rfl⟩
  case edges =>
    intro n x o
    rw [mem_edges, nameOf]
    constructor
    · rintro ⟨p, q, listed, rfl, rfl⟩
      obtain ⟨letter, r, first, path⟩ := (e.transitions p x q).mp listed
      exact ⟨letter, a.nameOf r, mem_edges.mpr ⟨p, r, first, rfl, rfl⟩,
        (h.named_epsilonPath (h.ends _ first).2).mpr ⟨q, path, rfl⟩⟩
    · rintro ⟨letter, _, edge, path⟩
      obtain ⟨p, r, first, rfl, rfl⟩ := mem_edges.mp edge
      obtain ⟨q, steps, rfl⟩ := (h.named_epsilonPath (h.ends _ first).2).mp path
      exact ⟨p, q, (e.transitions p x q).mpr ⟨letter, r, first, steps⟩, rfl, rfl⟩

end Nfa

/-! ### Words by name -/

namespace Named

/-- Where a symbol leads from a set of names. -/
def move (m : Named) (names : Finset String) (x : Symbol) : Finset String :=
  (m.edges.filter fun e => e.source ∈ names ∧ e.symbol = x).image Edge.target

def moves (m : Named) (names : Finset String) (w : Word) : Finset String := w.foldl m.move names

theorem mem_move : n ∈ m.move names x ↔ ∃ o ∈ names, ⟨o, x, n⟩ ∈ m.edges := by
  simp only [move, Finset.mem_image, Finset.mem_filter]
  constructor
  · rintro ⟨⟨o, y, n⟩, ⟨listed, there, rfl⟩, rfl⟩
    exact ⟨o, there, listed⟩
  · rintro ⟨o, there, listed⟩
    exact ⟨_, ⟨listed, there, rfl⟩, rfl⟩

end Named

namespace Nfa.WellFormed

variable {a : Nfa} {states : StateSet}

theorem namesOf_move (h : WellFormed a) (exist : ∀ q ∈ states, q < a.size) (x : Symbol) :
    a.namesOf (a.move states x) = a.named.move (a.namesOf states) x := by
  ext n
  rw [Nfa.mem_namesOf, Named.mem_move]
  constructor
  · rintro ⟨q, member, rfl⟩
    obtain ⟨p, start, listed⟩ := h.mem_move.mp member
    exact ⟨a.nameOf p, Nfa.mem_namesOf.mpr ⟨p, start, rfl⟩, mem_edges.mpr ⟨p, q, listed, rfl, rfl⟩⟩
  · rintro ⟨o, there, edge⟩
    obtain ⟨p, q, listed, rfl, rfl⟩ := mem_edges.mp edge
    have start := (h.mem_namesOf exist (h.ends _ listed).1).mp there
    exact ⟨q, h.mem_move.mpr ⟨p, start, listed⟩, rfl⟩

theorem namesOf_moves (h : WellFormed a) (exist : ∀ q ∈ states, q < a.size) (w : Word) :
    a.namesOf (a.moves states w) = a.named.moves (a.namesOf states) w := by
  induction w generalizing states with
  | nil => rfl
  | cons x rest ih =>
    rw [moves_cons, ih (h.move_lt states x), h.namesOf_move exist]
    rfl

theorem namesOf_eq_empty (h : WellFormed a) (exist : ∀ q ∈ states, q < a.size) :
    a.namesOf states = ∅ ↔ states = ∅ := by
  constructor
  · intro same
    exact h.namesOf_injective exist (fun q none => (StateSet.not_mem_empty q none).elim) same
  · rintro rfl
    rfl

theorem nodup_names (h : WellFormed a) (exist : ∀ q ∈ states, q < a.size) :
    (states.toList.map a.nameOf).Nodup :=
  states.nodup.map_on fun p hp q hq same => h.nameOf_injective (exist p hp) (exist q hq) same

theorem any_isAccepting (h : WellFormed a) (exist : ∀ q ∈ states, q < a.size) :
    states.any a.isAccepting ↔ ∃ n ∈ a.namesOf states, (n, .accepting) ∈ a.named.states := by
  unfold StateSet.any
  rw [List.any_eq_true]
  constructor
  · rintro ⟨q, member, accepts⟩
    exact ⟨a.nameOf q, Nfa.mem_namesOf.mpr ⟨q, member, rfl⟩,
      (h.accepting_mem_states (exist q member)).mpr accepts⟩
  · rintro ⟨n, there, accepting⟩
    obtain ⟨q, member, rfl⟩ := Nfa.mem_namesOf.mp there
    exact ⟨q, member, (h.accepting_mem_states (exist q member)).mp accepting⟩

end Nfa.WellFormed

/-! ### Determinization by name -/

namespace Dfa

variable {a b : Nfa} {d e : Dfa} {i j : Nat}

theorem State.nameOfMembers_perm {names names' : List String} (perm : names.Perm names') :
    nameOfMembers names = nameOfMembers names' := by
  obtain ⟨sorted, perm₁, ordered, same⟩ := nameOfMembers_eq names
  obtain ⟨sorted', perm₂, ordered', same'⟩ := nameOfMembers_eq names'
  have alike : sorted = sorted' := (perm₁.trans (perm.trans perm₂.symm)).eq_of_pairwise
    (fun _ _ _ _ => String.le_antisymm) ordered ordered'
  rw [same, same', alike]

namespace Determinizes

theorem members_lt (r : Determinizes a d) (h : a.WellFormed) (free : a.isEpsilonFree)
    (exist : i < d.size) : ∀ q ∈ d.members i, q < a.size :=
  h.accessible_lt ((r.mem_memberSets_iff h free).mp (mem_memberSets.mpr ⟨i, exist, rfl⟩))

theorem follow_named (r : Determinizes a d) (h : a.WellFormed) (free : a.isEpsilonFree) (w : Word) :
    ((d.follow 0 w).isSome ↔ w = [] ∨ a.named.moves a.named.initial w ≠ ∅) ∧
      ∀ j, d.follow 0 w = some j →
        j < d.size ∧ a.namesOf (d.members j) = a.named.moves a.named.initial w := by
  obtain ⟨reaches, members⟩ := r.follow_moves h free w
  have names : a.namesOf (a.moves a.initial w) = a.named.moves a.named.initial w :=
    h.namesOf_moves h.starts w
  have dry := h.namesOf_eq_empty (h.moves_lt h.starts w)
  rw [names] at dry
  refine ⟨?_, fun j leads => ?_⟩
  · rw [reaches, ne_eq, ne_eq, dry]
  · obtain ⟨exist, same⟩ := members j leads
    rw [same]
    exact ⟨exist, names⟩

/-! Both automata are determinized, and they are the same by name. -/

section

variable (r : Determinizes a d) (s : Determinizes b e) (ha : a.WellFormed) (hb : b.WellFormed)
  (fa : a.isEpsilonFree) (fb : b.isEpsilonFree) (same : a.named = b.named)

include r s ha hb fa fb same

theorem names_eq {w : Word} (leads : d.follow 0 w = some i) (leads' : e.follow 0 w = some j) :
    a.namesOf (d.members i) = b.namesOf (e.members j) := by
  rw [((r.follow_named ha fa w).2 i leads).2, ((s.follow_named hb fb w).2 j leads').2, same]

theorem leads_there {w : Word} (leads : d.follow 0 w = some i) : ∃ j, e.follow 0 w = some j := by
  have some : (d.follow 0 w).isSome := by
    rw [leads]
    rfl
  apply Option.isSome_iff_exists.mp
  rw [(s.follow_named hb fb w).1, ← same, ← (r.follow_named ha fa w).1]
  exact some

/-- Words lead together in one if they do in the other, for they do so by name. -/
theorem folds : d.Folds e := by
  intro v w i leads leads'
  obtain ⟨j, there⟩ := r.leads_there s ha hb fa fb same leads
  obtain ⟨k, there'⟩ := r.leads_there s ha hb fa fb same leads'
  have names := r.names_eq s ha hb fa fb same leads there
  have names' := r.names_eq s ha hb fa fb same leads' there'
  have hj := ((s.follow_named hb fb v).2 j there).1
  have hk := ((s.follow_named hb fb w).2 k there').1
  have alike : e.members j = e.members k := hb.namesOf_injective (s.members_lt hb fb hj)
    (s.members_lt hb fb hk) (names.symm.trans names')
  rw [s.wellFormed.members_injective hj hk alike] at there
  exact ⟨k, there, there'⟩

theorem states_alike {p q : State} {w : Word} (found : d.states[i]? = some p)
    (found' : e.states[i]? = some q) (leads : d.follow 0 w = some i)
    (leads' : e.follow 0 w = some i) :
    a.namesOf p.members = b.namesOf q.members ∧ p.name = q.name ∧ p.kind = q.kind := by
  have names := r.names_eq s ha hb fa fb same leads leads'
  have inside := r.members_lt ha fa (List.getElem?_eq_some_iff.mp found).1
  have inside' := s.members_lt hb fb (List.getElem?_eq_some_iff.mp found').1
  rw [members_of_found found] at names inside
  rw [members_of_found found'] at names inside'
  refine ⟨names, ?_, ?_⟩
  · rw [r.standing.name found, s.standing.name found']
    exact State.nameOfMembers_perm (List.perm_of_nodup_nodup_toFinset_eq (ha.nodup_names inside)
      (hb.nodup_names inside') names)
  · have accepts : p.members.any a.isAccepting = q.members.any b.isAccepting := by
      rw [Bool.eq_iff_iff, ha.any_isAccepting inside, hb.any_isAccepting inside', names, same]
    rw [r.standing.kind found, s.standing.kind found', accepts]

end

end Determinizes

/-- Two deterministic automata over states of the same names, which may be numbered differently. -/
structure Alike (a b : Nfa) (d e : Dfa) : Prop where
  size : d.size = e.size
  states : ∀ (i : Nat) (p q : State), d.states[i]? = some p → e.states[i]? = some q →
    a.namesOf p.members = b.namesOf q.members ∧ p.name = q.name ∧ p.kind = q.kind
  transitions : d.transitions = e.transitions
  listing : d.listing = e.listing

theorem listing_eq (size : d.size = e.size)
    (states : ∀ (i : Nat) (p q : State), d.states[i]? = some p → e.states[i]? = some q →
      p.name = q.name ∧ p.kind = q.kind) (transitions : d.transitions = e.transitions) :
    d.listing = e.listing := by
  have shown : d.states.map State.shown = e.states.map State.shown := by
    apply List.ext_getElem
    · rw [List.length_map, List.length_map]
      exact size
    · intro i here here'
      rw [List.length_map] at here here'
      obtain ⟨name, kind⟩ := states i _ _ (List.getElem?_eq_getElem here)
        (List.getElem?_eq_getElem here')
      rw [List.getElem_map, List.getElem_map, State.shown, name, kind]
      rfl
  have shownState : d.shownState = e.shownState := by
    have read (c : Dfa) (i : StateId) :
        c.shownState i = ((c.states.map State.shown)[i]?).getD (Nfa.numbered i) := by
      unfold Dfa.shownState
      rw [List.getElem?_map]
      cases c.states[i]? <;> rfl
    funext i
    rw [read, read, shown]
  have edges : d.shown = e.shown := by
    funext t
    rw [Dfa.shown, Dfa.shown, shownState]
  rw [listing, listing, shown, transitions, edges]

theorem Determinizes.alike (r : Determinizes a d) (s : Determinizes b e) (hd : d.Canonical)
    (he : e.Canonical) (ha : a.WellFormed) (hb : b.WellFormed) (fa : a.isEpsilonFree)
    (fb : b.isEpsilonFree) (same : a.named = b.named) : Alike a b d e := by
  have there := r.folds s ha hb fa fb same
  have back := s.folds r hb ha fb fa same.symm
  have size : d.size = e.size :=
    Nat.le_antisymm (hd.size_le_of_folds he there back) (he.size_le_of_folds hd back there)
  have transitions := hd.transitions_eq he there back r.wellFormed s.wellFormed
  have states : ∀ (i : Nat) (p q : State), d.states[i]? = some p → e.states[i]? = some q →
      a.namesOf p.members = b.namesOf q.members ∧ p.name = q.name ∧ p.kind = q.kind := by
    intro i p q found found'
    obtain ⟨w, access⟩ := hd.reached i (List.getElem?_eq_some_iff.mp found).1
    have leads' := hd.follow_of_folds he there back access.leads
    exact r.states_alike s ha hb fa fb same found found' access.leads leads'
  exact ⟨size, states, transitions,
    listing_eq size (fun i p q found found' => (states i p q found found').2) transitions⟩

end Dfa

namespace Nfa

variable {a b : Nfa}

/-- Determinization of both automata succeeds, with results that are alike. -/
def DeterminizeAlike (a b : Nfa) : Prop :=
  ∃ d e log log', a.determinize = ⟨d, log, .ok ()⟩ ∧ b.determinize = ⟨e, log', .ok ()⟩ ∧
    Dfa.Alike a b d e

theorem WellFormed.determinizeAlike (ha : WellFormed a) (hb : WellFormed b)
    (fa : a.isEpsilonFree) (fb : b.isEpsilonFree) (same : a.named = b.named) :
    DeterminizeAlike a b := by
  obtain ⟨d, log, ran, r⟩ := Dfa.determinize_succeeds ha.bounded fa
  obtain ⟨e, log', ran', s⟩ := Dfa.determinize_succeeds hb.bounded fb
  have hd := (Dfa.determinize_discovers ha.bounded ran).canonical r.wellFormed
  have he := (Dfa.determinize_discovers hb.bounded ran').canonical s.wellFormed
  exact ⟨d, e, log, log', ran, ran', r.alike s hd he ha hb fa fb same⟩

theorem isEpsilonFree_iff : a.isEpsilonFree ↔ ∀ m n, ⟨m, .epsilon, n⟩ ∉ a.named.edges := by
  constructor
  · intro free m n edge
    obtain ⟨p, q, listed, _⟩ := mem_edges.mp edge
    have letter := List.all_eq_true.mp free _ listed
    cases letter
  · intro free
    refine List.all_eq_true.mpr fun ⟨p, x, q⟩ listed => ?_
    cases x with
    | epsilon => exact (free _ _ (mem_edges.mpr ⟨p, q, listed, rfl, rfl⟩)).elim
    | letter _ => rfl

/-- Two automata that are the same by name, in whatever order they were declared, are the same by
name after elimination. Determinization of the results, or of the automata themselves where that is
possible, gives the same states by name and the same edges. -/
theorem Reachable.same_by_name (ha : Reachable a) (hb : Reachable b) (same : a.named = b.named) :
    (∃ a' b' log log', eliminateEpsilons a = ⟨a', log, .ok ()⟩ ∧
      eliminateEpsilons b = ⟨b', log', .ok ()⟩ ∧ a'.named = b'.named ∧
      a'.sortedTransitions.map a'.shown = b'.sortedTransitions.map b'.shown ∧
      DeterminizeAlike a' b') ∧
    (a.isEpsilonFree → DeterminizeAlike a b) := by
  constructor
  · obtain ⟨a', log, ran, ha', e⟩ := ha.wellFormed.eliminateEpsilons
    obtain ⟨b', log', ran', hb', e'⟩ := hb.wellFormed.eliminateEpsilons
    have named : a'.named = b'.named :=
      (e.named ha.wellFormed).unique (same ▸ e'.named hb.wellFormed)
    exact ⟨a', b', log, log', ran, ran', named, ha'.shown_sortedTransitions hb' named,
      ha'.determinizeAlike hb' e.isEpsilonFree e'.isEpsilonFree named⟩
  · intro free
    have free' : b.isEpsilonFree := by
      rw [isEpsilonFree_iff, ← same, ← isEpsilonFree_iff]
      exact free
    exact ha.wellFormed.determinizeAlike hb.wellFormed free free' same

/-- The automaton of `detour`, declared from its end. -/
def detourBackwards : List Operation := [
  .addState "s" .accepting, .addState "r" .ordinary, .addState "q" .ordinary,
  .addState "p" .ordinary, .addTransition ⟨1, .epsilon, 0⟩, .addTransition ⟨2, .letter "x", 1⟩,
  .addTransition ⟨2, .epsilon, 3⟩, .addTransition ⟨3, .epsilon, 2⟩, .addInitial 3]

theorem same_by_name_detour :
    (∃ a b log log', eliminateEpsilons (run {} detour) = ⟨a, log, .ok ()⟩ ∧
      eliminateEpsilons (run {} detourBackwards) = ⟨b, log', .ok ()⟩ ∧ a.named = b.named ∧
      a.sortedTransitions.map a.shown = b.sortedTransitions.map b.shown ∧
      DeterminizeAlike a b) ∧
    ((run {} detour).isEpsilonFree → DeterminizeAlike (run {} detour) (run {} detourBackwards)) :=
  Reachable.same_by_name ⟨detour, by decide, rfl⟩ ⟨detourBackwards, by decide, rfl⟩ (by decide)

end Nfa
end FiniteAutomata
