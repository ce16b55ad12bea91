import FiniteAutomata.Proofs.Images
import FiniteAutomata.Proofs.Interning
import FiniteAutomata.Proofs.Lookup

/-!
The subset construction succeeds. A state that has been expanded has an edge to each image of its
members, one that waits in the queue may still lack some. No edge is ever refused: one on the same
symbol leads to a state with the same members, and there is only one.
-/

namespace FiniteAutomata.Dfa

def Step (d : Dfa) (i j : StateId) : Prop := ∃ x, ⟨i, x, j⟩ ∈ d.transitions

/-- States are what their position and their members make of them. -/
def Standing (a : Nfa) (d : Dfa) : Prop :=
  d.bare = d.memberSets.mapIdx fun i m => .standing i m a

/-- A part of the subset automaton, in which only pending images may lack their edge. -/
structure Explored (a : Nfa) (pending : StateId → Symbol → Prop) (d : Dfa) : Prop where
  wellFormed : WellFormed d
  alphabet : d.alphabet = a.alphabet
  standing : Standing a d
  first : 0 < d.size ∧ d.members 0 = a.initial
  accessible : ∀ i < d.size, Relation.ReflTransGen d.Step 0 i
  sound : ∀ {i x j}, ⟨i, x, j⟩ ∈ d.transitions →
    (a.images (d.members i)).get? x = some (d.members j)
  complete : ∀ {i x m}, i < d.size → (a.images (d.members i)).get? x = some m →
    pending i x ∨ ∃ j, ⟨i, x, j⟩ ∈ d.transitions ∧ d.members j = m

/-- `e` has the states of `d` and one with the members `m`, at position `j`. -/
structure Grown (a : Nfa) (m : StateSet) (j : StateId) (d e : Dfa) : Prop where
  wellFormed : WellFormed e
  alphabet : e.alphabet = d.alphabet
  standing : Standing a e
  sets : e.memberSets = enlist d.memberSets m
  here : j < e.size ∧ e.members j = m
  last : m ∉ d.memberSets → j = d.size

variable {a : Nfa} {d e : Dfa} {m : StateSet} {i j : StateId} {x : Symbol}

theorem Standing.entering (standing : Standing a d) :
    Standing a (d.entering (.standing d.size m a)) := by
  have last : (d.entering (.standing d.size m a)).bare = d.bare ++ [.standing d.size m a] :=
    List.map_append
  unfold Standing at standing ⊢
  rw [last, memberSets_entering, List.mapIdx_concat, standing, ← size_eq]
  rfl

theorem Standing.bare_of_found {q : State} (standing : Standing a d) (found : d.states[i]? = some q) :
    q.bare = .standing i q.members a := by
  have there : d.bare[i]? = some q.bare := by
    rw [bare, List.getElem?_map, found]
    rfl
  have listed : d.memberSets[i]? = some q.members := by
    rw [memberSets, List.getElem?_map, found]
    rfl
  rw [standing, List.getElem?_mapIdx, listed] at there
  exact (Option.some.inj there).symm

theorem Standing.shownState_eq (standing : Standing a d) (exist : i < d.size) :
    d.shownState i = (State.standing i (d.members i) a).shown := by
  obtain ⟨q, found⟩ := exists_state exist
  rw [members_of_found found, ← standing.bare_of_found found, shownState, found]
  rfl

theorem intern_succeeds (h : WellFormed d) (standing : Standing a d) (exist : ∀ q ∈ m, q < a.size) :
    ∃ e j, intern m a d = ⟨e, [], .ok (j, decide (m ∉ d.memberSets))⟩ ∧ Grown a m j d e ∧
      e.transitions = d.transitions := by
  cases found : d.find? m with
  | some q =>
    obtain ⟨inside, same⟩ := h.find?_eq_some found
    have known : m ∈ d.memberSets := List.mem_of_getElem? (same ▸ getElem?_memberSets inside)
    refine ⟨d, q.id, ?_, ⟨h, rfl, standing, (if_pos known).symm, ⟨inside, same⟩, ?_⟩, rfl⟩
    · rw [intern_known found, decide_eq_false fun absent => absent known]
    · intro absent
      exact (absent known).elim
  | none =>
    have absent := find?_eq_none found
    have sets : (d.entering (.standing d.size m a)).memberSets = d.memberSets ++ [m] :=
      memberSets_entering d _
    refine ⟨_, d.size, ?_, ⟨h.entering absent, rfl, standing.entering, sets.trans (if_neg absent).symm,
      ⟨?_, ?_⟩, fun _ => rfl⟩, rfl⟩
    · rw [intern_new found exist, decide_eq_true absent]
    · rw [size_entering]
      exact Nat.lt_succ_self _
    · rw [members_eq, sets, size_eq, List.getElem?_concat_length]
      rfl

namespace Grown

theorem of_bare {f : Dfa} (g : Grown a m j d e) (wellFormed : WellFormed f) (bare : f.bare = e.bare)
    (alphabet : f.alphabet = e.alphabet) : Grown a m j d f := by
  have sets : f.memberSets = e.memberSets := by rw [memberSets_eq, bare, ← memberSets_eq]
  constructor
  case wellFormed => exact wellFormed
  case alphabet => exact alphabet.trans g.alphabet
  case standing =>
    unfold Standing
    rw [bare, sets]
    exact g.standing
  case sets => exact sets.trans g.sets
  case here =>
    rw [size_eq, members_eq, sets, ← members_eq, ← size_eq]
    exact g.here
  case last => exact g.last

theorem kept (g : Grown a m j d e) (exist : i < d.size) : i < e.size ∧ e.members i = d.members i := by
  have inside : i < d.memberSets.length := size_eq d ▸ exist
  have same : e.memberSets[i]? = d.memberSets[i]? := by
    rw [g.sets]
    exact getElem?_enlist inside
  constructor
  · rw [size_eq]
    apply (List.getElem?_eq_some_iff.mp (same.trans (getElem?_memberSets exist))).1
  · rw [members_eq, same, ← members_eq]

/-- A state is shown as it was. -/
theorem shownState_eq (g : Grown a m j d e) (standing : Standing a d) (exist : i < d.size) :
    e.shownState i = d.shownState i := by
  obtain ⟨inside, same⟩ := g.kept exist
  rw [g.standing.shownState_eq inside, same, ← standing.shownState_eq exist]

theorem old_or_new (g : Grown a m j d e) (exist : i < e.size) :
    i < d.size ∨ m ∉ d.memberSets ∧ i = j := by
  have listed := g.sets
  rw [size_eq] at exist
  by_cases known : m ∈ d.memberSets
  · rw [enlist, if_pos known] at listed
    rw [listed, ← size_eq] at exist
    exact .inl exist
  · rw [enlist, if_neg known] at listed
    rw [listed, List.length_append, ← size_eq] at exist
    rcases Nat.lt_succ_iff_lt_or_eq.mp exist with old | new
    · exact .inl old
    · exact .inr ⟨known, new.trans (g.last known).symm⟩

end Grown

namespace Explored

variable {pending : StateId → Symbol → Prop}

theorem weaken {pending' : StateId → Symbol → Prop} (h : Explored a pending d)
    (weaker : ∀ {i x m}, (a.images (d.members i)).get? x = some m → pending i x → pending' i x) :
    Explored a pending' d :=
  { h with
    complete := fun exist image => (h.complete exist image).imp_left (weaker image) }

/-- An edge that is there already leads to the image, so it leads to the same state. -/
theorem only (h : Explored a pending d) (image : (a.images (d.members i)).get? x = some m)
    (g : Grown a m j d e) : ∀ k, ⟨i, x, k⟩ ∈ d.transitions → k = j := by
  intro k listed
  have same : d.members k = m := Option.some.inj ((h.sound listed).symm.trans image)
  obtain ⟨inside, kept⟩ := g.kept (h.wellFormed.ends _ listed).2
  apply g.wellFormed.members_injective inside g.here.1
  rw [kept, same, g.here.2]

/-- One image gets its edge. -/
theorem link_succeeds (h : Explored a pending d) (bounded : a.Bounded) (exist : i < d.size)
    (image : (a.images (d.members i)).get? x = some m) :
    ∃ e f j, intern m a d = ⟨e, [], .ok (j, decide (m ∉ d.memberSets))⟩ ∧
      addTransition ⟨i, x, j⟩ e = ⟨f, [], .ok (decide (⟨i, x, j⟩ ∉ d.transitions))⟩ ∧
      Grown a m j d e ∧ Grown a m j d f ∧ f.transitions = enlist d.transitions ⟨i, x, j⟩ := by
  obtain ⟨e, j, interned, g, same⟩ :=
    intern_succeeds h.wellFormed h.standing (bounded.image image)
  have only : ∀ k, ⟨i, x, k⟩ ∈ e.transitions → k = j := by
    rw [same]
    exact h.only image g
  obtain ⟨f, linked, wellFormed, bare, alphabet, transitions⟩ :=
    addTransition_succeeds g.wellFormed (g.kept exist).1 g.here.1 only
  rw [same] at linked transitions
  exact ⟨e, f, j, interned, linked, g, g.of_bare wellFormed bare alphabet, transitions⟩

/-- If the state of the image is new, it waits from now on. -/
theorem link (h : Explored a pending d) (exist : i < d.size)
    (image : (a.images (d.members i)).get? x = some m) (g : Grown a m j d e)
    (transitions : e.transitions = enlist d.transitions ⟨i, x, j⟩) :
    Explored a (fun k y => pending k y ∧ ¬ (k = i ∧ y = x) ∨ m ∉ d.memberSets ∧ k = j) e := by
  have listed : ∀ t, t ∈ e.transitions ↔ t ∈ d.transitions ∨ t = ⟨i, x, j⟩ := by
    intro t
    rw [transitions]
    exact mem_enlist
  have new : ⟨i, x, j⟩ ∈ e.transitions := (listed _).mpr (.inr rfl)
  constructor
  case wellFormed => exact g.wellFormed
  case alphabet => exact g.alphabet.trans h.alphabet
  case standing => exact g.standing
  case first =>
    obtain ⟨some, initial⟩ := h.first
    obtain ⟨inside, same⟩ := g.kept some
    exact ⟨inside, same.trans initial⟩
  case accessible =>
    have carried {p : StateId} (path : Relation.ReflTransGen d.Step 0 p) :
        Relation.ReflTransGen e.Step 0 p := by
      induction path with
      | refl => exact .refl
      | tail _ edge ih =>
        obtain ⟨y, member⟩ := edge
        exact ih.tail ⟨y, (listed _).mpr (.inl member)⟩
    intro k inside
    rcases g.old_or_new inside with old | ⟨_, rfl⟩
    · exact carried (h.accessible k old)
    · exact (carried (h.accessible i exist)).tail ⟨x, new⟩
  case sound =>
    intro k y l member
    rcases (listed _).mp member with old | added
    · obtain ⟨source, target⟩ := h.wellFormed.ends _ old
      rw [(g.kept source).2, (g.kept target).2]
      exact h.sound old
    · obtain ⟨rfl, rfl, rfl⟩ := Transition.mk.inj added
      rw [(g.kept exist).2, g.here.2]
      exact image
  case complete =>
    -- An old state keeps its edges, and the image at hand has one now. A new state waits.
    intro k y n inside there
    rcases g.old_or_new inside with old | fresh
    · rw [(g.kept old).2] at there
      by_cases linked : k = i ∧ y = x
      · obtain ⟨rfl, rfl⟩ := linked
        have same : m = n := Option.some.inj (image.symm.trans there)
        exact .inr ⟨j, new, g.here.2.trans same⟩
      · rcases h.complete old there with waits | ⟨l, member, same⟩
        · exact .inl (.inl ⟨waits, linked⟩)
        · have target := (h.wellFormed.ends _ member).2
          exact .inr ⟨l, (listed _).mpr (.inl member), (g.kept target).2.trans same⟩
    · exact .inl (.inr fresh)

theorem connect_succeeds (bounded : a.Bounded) {images : List (Symbol × StateSet)}
    (h : Explored a pending d) (exist : i < d.size)
    (listed : ∀ p ∈ images, (a.images (d.members i)).get? p.1 = some p.2) :
    ∃ e log more, connect a i images d = ⟨e, log, .ok more⟩ ∧
      Explored a (fun k y => pending k y ∧ ¬ (k = i ∧ ∃ m, (y, m) ∈ images) ∨ k ∈ more) e ∧
      (∀ k ∈ more, k < e.size) ∧ ∀ k < d.size, k < e.size ∧ e.members k = d.members k := by
  induction images generalizing d pending with
  | nil =>
    refine ⟨d, [], [], rfl, h.weaken fun _ waits => .inl ⟨waits, ?_⟩, ?_, fun k old => ⟨old, rfl⟩⟩
    · intro found
      obtain ⟨_, m, member⟩ := found
      cases member
    · intro k member
      cases member
  | cons image rest ih =>
    obtain ⟨x, m⟩ := image
    have here : (a.images (d.members i)).get? x = some m := listed (x, m) List.mem_cons_self
    obtain ⟨mid, f, j, interned, linked, _, g, transitions⟩ := h.link_succeeds bounded exist here
    obtain ⟨inside, same⟩ := g.kept exist
    have later : ∀ p ∈ rest, (a.images (f.members i)).get? p.1 = some p.2 := by
      intro p member
      rw [same]
      exact listed p (List.mem_cons_of_mem _ member)
    obtain ⟨e, log, more, ok, explored, others, kept⟩ :=
      ih (h.link exist here g transitions) inside later
    obtain ⟨log, ran⟩ : ∃ log, connect a i ((x, m) :: rest) d =
        ⟨e, log, .ok (if decide (m ∉ d.memberSets) then j :: more else more)⟩ :=
      ⟨_, Edit.bind_of_ok interned (Edit.bind_of_ok rfl (Edit.bind_of_ok linked
        (Edit.bind_of_ok rfl (Edit.map_of_ok _ ok))))⟩
    refine ⟨e, log, _, ran, explored.weaken ?_, ?_, fun k old => ?_⟩
    · rintro k y n _ (⟨⟨waits, other⟩ | ⟨fresh, rfl⟩, unlinked⟩ | member)
      · refine .inl ⟨waits, ?_⟩
        intro found
        obtain ⟨rfl, n, member⟩ := found
        rcases List.mem_cons.mp member with first | there
        · exact other ⟨rfl, (Prod.mk.inj first).1⟩
        · exact unlinked ⟨rfl, n, there⟩
      · rw [if_pos (decide_eq_true fresh)]
        exact .inr List.mem_cons_self
      · refine .inr ?_
        split
        · exact List.mem_cons_of_mem j member
        · exact member
    · intro k member
      split at member
      · rcases List.mem_cons.mp member with rfl | queued
        · exact (kept k g.here.1).1
        · exact others k queued
      · exact others k member
    · obtain ⟨first, before⟩ := g.kept old
      obtain ⟨second, after⟩ := kept k first
      exact ⟨second, after.trans before⟩

end Explored

/-- What waits in the queue exists, and whatever does not wait has all its edges. -/
structure Queued (a : Nfa) (queue : List StateId) (d : Dfa) : Prop where
  explored : Explored a (fun i _ => i ∈ queue) d
  exist : ∀ i ∈ queue, i < d.size

theorem expand_succeeds (bounded : a.Bounded) {rest : List StateId} (h : Queued a (i :: rest) d) :
    ∃ e log more, expand a i d = ⟨e, log, .ok more⟩ ∧ Queued a (rest ++ more) e := by
  have exist := h.exist i List.mem_cons_self
  have listed : ∀ p ∈ (a.images (d.members i)).entries,
      (a.images (d.members i)).get? p.1 = some p.2 :=
    fun _ member => SymbolMap.mem_entries_iff.mp member
  obtain ⟨e, log, more, ok, explored, new, kept⟩ := h.explored.connect_succeeds bounded exist listed
  refine ⟨e, log, more, Edit.bind_of_silent Edit.get_apply ok, explored.weaken ?_, ?_⟩
  · rintro k y m image (⟨waits, unlinked⟩ | member)
    · rcases List.mem_cons.mp waits with rfl | waits
      · rw [(kept k exist).2] at image
        exact (unlinked ⟨rfl, m, SymbolMap.mem_entries_iff.mpr image⟩).elim
      · exact List.mem_append_left more waits
    · exact List.mem_append_right rest member
  · intro k member
    rcases List.mem_append.mp member with waits | fresh
    · exact (kept k (h.exist k (List.mem_cons_of_mem i waits))).1
    · exact new k fresh

/-- The state for the initial states is the only one, and waits. -/
theorem queued_start (a : Nfa) :
    Queued a [0] ((emptyFor a).entering (.standing 0 a.initial a)) where
  explored := by
    have standing : Standing a (emptyFor a) := rfl
    have size : ((emptyFor a).entering (.standing 0 a.initial a)).size = 1 := rfl
    constructor
    case wellFormed => exact (wellFormed_emptyFor a).entering List.not_mem_nil
    case alphabet => rfl
    case standing => exact standing.entering
    case first => exact ⟨Nat.one_pos, rfl⟩
    case accessible =>
      intro i hi
      rw [size, Nat.lt_one_iff] at hi
      rw [hi]
    case sound =>
      intro i x j member
      cases member
    case complete =>
      intro i x m hi _
      rw [size, Nat.lt_one_iff] at hi
      exact .inl (List.mem_singleton.mpr hi)
  exist i member := by
    rw [List.mem_singleton.mp member]
    exact Nat.one_pos

theorem expandAll_succeeds (bounded : a.Bounded) (h : Queued a [i] d) :
    ∃ e log, expandAll a i d = ⟨e, log, .ok ()⟩ ∧ Queued a [] e := by
  obtain ⟨e, log, ok, done⟩ := (expansion a).run_succeeds (fun queue e _ => Queued a queue e)
    (fun h => expand_succeeds bounded h) [] trivial h
  exact ⟨e, log, ok, done⟩

/-- The whole accessible part of the subset automaton. -/
abbrev Determinizes (a : Nfa) (d : Dfa) : Prop := Explored a (fun _ _ => False) d

theorem determinize_succeeds (bounded : a.Bounded) (free : a.isEpsilonFree) :
    ∃ d log, a.determinize = ⟨d, log, .ok ()⟩ ∧ Determinizes a d := by
  have interned : intern a.initial a (emptyFor a) =
      ⟨(emptyFor a).entering (.standing 0 a.initial a), [], .ok (0, true)⟩ :=
    intern_new rfl bounded.starts
  obtain ⟨d, log, ok, done⟩ := expandAll_succeeds bounded (queued_start a)
  obtain ⟨log, ran⟩ : ∃ log, a.determinize = ⟨d, log, .ok ()⟩ := by
    rw [a.determinize_eq, construct_eq, if_pos free]
    exact ⟨_, Edit.bind_of_ok interned (Edit.bind_of_ok ok (Edit.bind_of_ok Edit.get_apply rfl))⟩
  exact ⟨d, log, ran, done.explored.weaken fun _ waits => List.not_mem_nil waits⟩

end FiniteAutomata.Dfa
