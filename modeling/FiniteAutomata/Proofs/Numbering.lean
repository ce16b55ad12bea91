import FiniteAutomata.Proofs.AccessiblePart
import FiniteAutomata.Proofs.Discovery
import Mathlib.Data.List.Induction

/-!
The numbers of the states come from the words that lead to them. Sorted by the first word, in
shortlex order, that leads from the initial state to each of them, the states are numbered from zero
on.
-/

namespace FiniteAutomata.Dfa

variable {ts : List Transition} {words : List Word} {n : Nat} {t : Transition} {u v w : Word}
  {i j : Nat}

/-! ### Words along the edges -/

/-- A word for each state in the order of their numbers. Each but the first prolongs the word of
another state along an edge, and no edge makes for an earlier word. -/
structure Chart (ts : List Transition) (words : List Word) : Prop where
  sorted : words.Pairwise Word.Before
  root : words[0]? = some []
  entered : ∀ {j w}, words[j]? = some w → j = 0 ∧ w = [] ∨
    ∃ i u x, ⟨i, x, j⟩ ∈ ts ∧ words[i]? = some u ∧ w = u ++ [x]
  early : ∀ t ∈ ts, ∃ u w, words[t.source]? = some u ∧ words[t.target]? = some w ∧
    (w = u ++ [t.symbol] ∨ w.Before (u ++ [t.symbol]))

namespace Chart

theorem start : Chart [] [[]] where
  sorted := List.pairwise_singleton _ _
  root := rfl
  entered {j w} there := by
    cases j with
    | zero => exact .inl ⟨rfl, (Option.some.inj there).symm⟩
    | succ j => cases there
  early t member := by cases member

theorem before (c : Chart ts words) (there : words[i]? = some v) (there' : words[j]? = some w)
    (less : i < j) : v.Before w := by
  obtain ⟨inside, rfl⟩ := List.getElem?_eq_some_iff.mp there
  obtain ⟨inside', rfl⟩ := List.getElem?_eq_some_iff.mp there'
  exact List.pairwise_iff_getElem.mp c.sorted i j inside inside' less

/-- An edge after all others makes for a word after all others. -/
theorem before_later (c : Chart ts words) (later : ∀ s ∈ ts, s.Before t)
    (source : words[t.source]? = some u) (there : words[j]? = some w) :
    w.Before (u ++ [t.symbol]) := by
  rcases c.entered there with ⟨_, rfl⟩ | ⟨i, v, x, listed, there', rfl⟩
  · exact Word.nil_before_concat u t.symbol
  · rcases later _ listed with less | ⟨same, less⟩
    · exact (c.before there' source less).concat x t.symbol
    · have same : i = t.source := same
      rw [same, source] at there'
      obtain rfl := Option.some.inj there'
      exact Word.before_concat u less

theorem known (c : Chart ts words) (later : ∀ s ∈ ts, s.Before t)
    (source : t.source < words.length) (target : t.target < words.length) :
    Chart (ts ++ [t]) words where
  sorted := c.sorted
  root := c.root
  entered there := by
    refine (c.entered there).imp_right fun found => ?_
    obtain ⟨i, u, x, listed, rest⟩ := found
    exact ⟨i, u, x, List.mem_append_left _ listed, rest⟩
  early s member := by
    rcases List.mem_append.mp member with old | new
    · exact c.early s old
    · rw [List.mem_singleton.mp new]
      have there := List.getElem?_eq_getElem source
      have there' := List.getElem?_eq_getElem target
      exact ⟨_, _, there, there', .inr (c.before_later later there there')⟩

theorem fresh (c : Chart ts words) (later : ∀ s ∈ ts, s.Before t)
    (source : words[t.source]? = some u) (target : t.target = words.length) :
    Chart (ts ++ [t]) (words ++ [u ++ [t.symbol]]) := by
  have kept : ∀ {i : Nat} {v}, words[i]? = some v → (words ++ [u ++ [t.symbol]])[i]? = some v := by
    intro i v there
    rw [List.getElem?_append_left (List.getElem?_eq_some_iff.mp there).1]
    exact there
  have last : (words ++ [u ++ [t.symbol]])[t.target]? = some (u ++ [t.symbol]) := by
    rw [target]
    exact List.getElem?_concat_length
  constructor
  case sorted =>
    refine List.pairwise_append.mpr ⟨c.sorted, List.pairwise_singleton _ _, ?_⟩
    intro v member w new
    obtain ⟨j, there⟩ := List.mem_iff_getElem?.mp member
    rw [List.mem_singleton.mp new]
    exact c.before_later later source there
  case root => exact kept c.root
  case entered =>
    intro j w there
    rcases Nat.lt_trichotomy j words.length with old | new | missing
    · rw [List.getElem?_append_left old] at there
      refine (c.entered there).imp_right fun found => ?_
      obtain ⟨i, v, x, listed, there', same⟩ := found
      exact ⟨i, v, x, List.mem_append_left _ listed, kept there', same⟩
    · rw [new, ← target, last] at there
      refine .inr ⟨t.source, u, t.symbol, ?_, kept source, (Option.some.inj there).symm⟩
      rw [new, ← target]
      exact List.mem_append_right _ List.mem_cons_self
    · have inside := (List.getElem?_eq_some_iff.mp there).1
      rw [List.length_append, List.length_singleton] at inside
      omega
  case early =>
    intro s member
    rcases List.mem_append.mp member with old | new
    · obtain ⟨v, w, there, there', least⟩ := c.early s old
      exact ⟨v, w, kept there, kept there', least⟩
    · rw [List.mem_singleton.mp new]
      exact ⟨u, _, kept source, last, .inl rfl⟩

end Chart

theorem Discovery.chart (found : Discovery ts n) : ∃ words, words.length = n ∧ Chart ts words := by
  induction found with
  | start => exact ⟨[[]], rfl, .start⟩
  | known _ later source target ih =>
    obtain ⟨words, rfl, c⟩ := ih
    exact ⟨words, rfl, c.known later source target⟩
  | fresh _ later source target ih =>
    obtain ⟨words, rfl, c⟩ := ih
    have there := List.getElem?_eq_getElem source
    exact ⟨_, List.length_append, c.fresh later there target⟩

/-! ### Words that lead to a state -/

/-- The first word, in shortlex order, that leads from the initial state to a state. -/
structure LeastAccess (d : Dfa) (i : StateId) (w : Word) : Prop where
  leads : d.follow 0 w = some i
  least : ∀ v, d.follow 0 v = some i → v = w ∨ w.Before v

variable {d : Dfa}

theorem LeastAccess.unique (h : d.LeastAccess i v) (h' : d.LeastAccess i w) : v = w := by
  rcases h.least w h'.leads with same | less
  · exact same.symm
  · rcases h'.least v h.leads with same | more
    · exact same
    · exact (less.asymm more).elim

namespace Chart

theorem leads (c : Chart d.transitions words) (h : d.WellFormed) (there : words[j]? = some w) :
    d.follow 0 w = some j := by
  induction w using List.reverseRecOn generalizing j with
  | nil =>
    rcases c.entered there with ⟨rfl, _⟩ | ⟨i, u, x, _, _, same⟩
    · rfl
    · exact (List.append_ne_nil_of_right_ne_nil u (List.cons_ne_nil x []) same.symm).elim
  | append_singleton v y ih =>
    rcases c.entered there with ⟨_, absurd⟩ | ⟨i, u, x, listed, there', same⟩
    · exact (List.append_ne_nil_of_right_ne_nil v (List.cons_ne_nil y []) absurd).elim
    · obtain ⟨rfl, last⟩ := List.append_inj' same rfl
      obtain rfl := List.singleton_inj.mp last
      rw [follow_concat, ih there']
      exact h.successor_eq_some.mpr listed

theorem least (c : Chart d.transitions words) (h : d.WellFormed) (leads : d.follow 0 v = some j) :
    ∃ w, words[j]? = some w ∧ (v = w ∨ w.Before v) := by
  -- On the word from its end: what leads to the source of the last edge is bounded by the word of
  -- the source, and the edge itself was considered when the target got its word.
  induction v using List.reverseRecOn generalizing j with
  | nil =>
    obtain rfl := Option.some.inj leads
    exact ⟨[], c.root, .inl rfl⟩
  | append_singleton v x ih =>
    rw [follow_concat] at leads
    obtain ⟨i, leads, next⟩ := Option.bind_eq_some_iff.mp leads
    obtain ⟨u, there, bound⟩ := ih leads
    obtain ⟨u', w, source, target, early⟩ := c.early _ (h.successor_eq_some.mp next)
    obtain rfl : u = u' := Option.some.inj (there.symm.trans source)
    refine ⟨w, target, ?_⟩
    rcases bound with rfl | less
    · exact early.imp_left Eq.symm
    · have less := less.concat x x
      rcases early with rfl | less'
      · exact .inr less
      · exact .inr (less'.trans less)

theorem leastAccess (c : Chart d.transitions words) (h : d.WellFormed) :
    d.LeastAccess j w ↔ words[j]? = some w := by
  have least (there : words[j]? = some w) : d.LeastAccess j w := by
    refine ⟨c.leads h there, fun v leads => ?_⟩
    obtain ⟨w', there', bound⟩ := c.least h leads
    obtain rfl : w = w' := Option.some.inj (there.symm.trans there')
    exact bound
  constructor
  · intro access
    obtain ⟨w', there, bound⟩ := c.least h access.leads
    rcases bound with rfl | less
    · exact there
    · rcases access.least w' (c.leads h there) with rfl | less'
      · exact there
      · exact (less.asymm less').elim
  · exact least

end Chart

/-! ### The numbering -/

/-- States are numbered by the first words that lead to them, and edges are listed by the states that
they leave and their symbols. -/
structure Canonical (d : Dfa) : Prop where
  inside : ∀ w i, d.follow 0 w = some i → i < d.size
  reached : ∀ i < d.size, ∃ w, d.LeastAccess i w
  ascending : ∀ i j v w, d.LeastAccess i v → d.LeastAccess j w → i < j → v.Before w
  ordered : d.transitions.Pairwise Transition.Before

theorem Discovery.canonical (found : Discovery d.transitions d.size) (h : d.WellFormed) :
    d.Canonical := by
  obtain ⟨words, size, c⟩ := found.chart
  constructor
  case inside =>
    intro w i leads
    obtain ⟨v, there, _⟩ := c.least h leads
    exact size ▸ (List.getElem?_eq_some_iff.mp there).1
  case reached =>
    intro i exist
    have there := List.getElem?_eq_getElem (size ▸ exist)
    exact ⟨_, (c.leastAccess h).mpr there⟩
  case ascending =>
    intro i j v w access access' less
    exact c.before ((c.leastAccess h).mp access) ((c.leastAccess h).mp access') less
  case ordered => exact found.ordered

/-! ### There is only one -/

/-- Words that lead to the same state of the first automaton do so in the second. -/
def Folds (d e : Dfa) : Prop :=
  ∀ v w i, d.follow 0 v = some i → d.follow 0 w = some i →
    ∃ j, e.follow 0 v = some j ∧ e.follow 0 w = some j

theorem LeastAccess.transfer {e : Dfa} (there : d.Folds e) (back : e.Folds d)
    (h : d.LeastAccess i w) : ∃ j, e.LeastAccess j w := by
  obtain ⟨j, leads, _⟩ := there w w i h.leads h.leads
  refine ⟨j, leads, fun v leads' => ?_⟩
  obtain ⟨k, before, before'⟩ := back v w j leads' leads
  obtain rfl : k = i := Option.some.inj (before'.symm.trans h.leads)
  exact h.least v before

namespace Canonical

variable {e : Dfa}

theorem lt_of_before (h : d.Canonical) (access : d.LeastAccess i v) (access' : d.LeastAccess j w)
    (less : v.Before w) : i < j := by
  rcases Nat.lt_trichotomy i j with before | rfl | after
  · exact before
  · rw [access.unique access'] at less
    exact (less.asymm less).elim
  · exact (less.asymm (h.ascending j i w v access' access after)).elim

theorem leastAccess_of_folds (hd : d.Canonical) (he : e.Canonical) (there : d.Folds e)
    (back : e.Folds d) (access : d.LeastAccess i w) : e.LeastAccess i w := by
  -- By the number: the words before this one are first words of the same states in both.
  induction i using Nat.strongRecOn generalizing w with
  | ind i ih =>
    obtain ⟨j, access'⟩ := access.transfer there back
    rcases Nat.lt_trichotomy i j with less | rfl | more
    · have exist : i < e.size := Nat.lt_trans less (he.inside w j access'.leads)
      obtain ⟨v, first⟩ := he.reached i exist
      obtain ⟨k, first'⟩ := first.transfer back there
      have earlier : k < i := hd.lt_of_before first' access (he.ascending i j v w first access' less)
      have leads := (ih k earlier first').leads
      obtain rfl : k = i := Option.some.inj (leads.symm.trans first.leads)
      exact (Nat.lt_irrefl k earlier).elim
    · exact access'
    · have exist : j < d.size := Nat.lt_trans more (hd.inside w i access.leads)
      obtain ⟨v, first⟩ := hd.reached j exist
      have earlier := hd.ascending j i v w first access more
      rw [(ih j more first).unique access'] at earlier
      exact (earlier.asymm earlier).elim

theorem follow_of_folds (hd : d.Canonical) (he : e.Canonical) (there : d.Folds e)
    (back : e.Folds d) (leads : d.follow 0 v = some i) : e.follow 0 v = some i := by
  obtain ⟨w, access⟩ := hd.reached i (hd.inside v i leads)
  obtain ⟨j, leads', same⟩ := there v w i leads access.leads
  rw [(hd.leastAccess_of_folds he there back access).leads] at same
  exact leads'.trans same.symm

/-- Where the same words lead together, the numbers are the same. -/
theorem follow_eq (hd : d.Canonical) (he : e.Canonical) (there : d.Folds e) (back : e.Folds d)
    (w : Word) : d.follow 0 w = e.follow 0 w := by
  apply Option.ext
  intro i
  exact ⟨hd.follow_of_folds he there back, he.follow_of_folds hd back there⟩

theorem size_le_of_folds (hd : d.Canonical) (he : e.Canonical) (there : d.Folds e)
    (back : e.Folds d) : d.size ≤ e.size := by
  apply Nat.le_of_not_lt
  intro smaller
  obtain ⟨w, access⟩ := hd.reached e.size smaller
  exact Nat.lt_irrefl _ (he.inside w _ (hd.follow_of_folds he there back access.leads))

theorem mem_transitions_iff (h : d.Canonical) (wellFormed : d.WellFormed) {x : Symbol} :
    ⟨i, x, j⟩ ∈ d.transitions ↔ ∃ w, d.follow 0 w = some i ∧ d.follow 0 (w ++ [x]) = some j := by
  constructor
  · intro listed
    obtain ⟨w, access⟩ := h.reached i (wellFormed.ends _ listed).1
    refine ⟨w, access.leads, ?_⟩
    rw [follow_concat, access.leads]
    exact wellFormed.successor_eq_some.mpr listed
  · rintro ⟨w, leads, further⟩
    rw [follow_concat, leads] at further
    exact wellFormed.successor_eq_some.mp further

theorem transitions_eq (hd : d.Canonical) (he : e.Canonical) (there : d.Folds e) (back : e.Folds d)
    (wd : d.WellFormed) (we : e.WellFormed) : d.transitions = e.transitions := by
  have perm : d.transitions.Perm e.transitions := by
    apply (List.perm_ext_iff_of_nodup wd.distinct we.distinct).mpr
    intro ⟨i, x, j⟩
    rw [hd.mem_transitions_iff wd, he.mem_transitions_iff we]
    simp only [hd.follow_eq he there back]
  have antisymm (t u : Transition) (before : t.Before u) (after : u.Before t) : t = u :=
    (before.asymm after).elim
  exact perm.eq_of_pairwise (fun t u _ _ => antisymm t u) hd.ordered he.ordered

end Canonical

end FiniteAutomata.Dfa

namespace FiniteAutomata.Nfa

variable {a : Nfa}

/-- Determinization succeeds, and numbers the states by the first words that lead to them. -/
theorem Reachable.determinize_canonical (h : Reachable a) (free : a.isEpsilonFree) :
    ∃ d log, a.determinize = ⟨d, log, .ok ()⟩ ∧ d.Canonical := by
  obtain ⟨d, log, ran, e⟩ := Dfa.determinize_succeeds h.wellFormed.bounded free
  exact ⟨d, log, ran, (Dfa.determinize_discovers h.wellFormed.bounded ran).canonical e.wellFormed⟩

theorem determinize_canonical_fork :
    ∃ d log, (run {} fork).determinize = ⟨d, log, .ok ()⟩ ∧ d.Canonical :=
  Reachable.determinize_canonical ⟨fork, by decide, rfl⟩ (by decide)

end FiniteAutomata.Nfa
