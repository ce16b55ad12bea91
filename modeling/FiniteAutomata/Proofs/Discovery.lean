import FiniteAutomata.Proofs.Determinization
import FiniteAutomata.Proofs.Shortlex

/-!
The order in which the subset construction discovers its states. States are expanded first come,
first served, and the images of a state are listed by symbol. So the edges come ordered by source and
symbol, and an edge to a state that was not met before leads to the one with the next number. The log
tells them as they come.
-/

namespace FiniteAutomata

/-- By source, then by symbol. -/
def Transition.Before (t u : Transition) : Prop :=
  t.source < u.source ∨ t.source = u.source ∧ t.symbol < u.symbol

theorem Transition.Before.asymm {t u : Transition} (h : t.Before u) : ¬ u.Before t := by
  intro back
  rcases h with less | ⟨same, less⟩
  · rcases back with more | ⟨same, _⟩
    · exact Nat.lt_asymm less more
    · exact Nat.ne_of_lt less same.symm
  · rcases back with more | ⟨_, more⟩
    · exact Nat.ne_of_lt more same.symm
    · exact Symbol.lt_asymm less more

theorem Transition.before_irrefl (t : Transition) : ¬ t.Before t := fun h => h.asymm h

namespace Dfa

/-- The edges met so far, one after another, and how many states they have led to. -/
inductive Discovery : List Transition → Nat → Prop where
  | start : Discovery [] 1
  | known {ts : List Transition} {n : Nat} {t : Transition} (past : Discovery ts n)
      (later : ∀ u ∈ ts, u.Before t) (source : t.source < n) (target : t.target < n) :
      Discovery (ts ++ [t]) n
  | fresh {ts : List Transition} {n : Nat} {t : Transition} (past : Discovery ts n)
      (later : ∀ u ∈ ts, u.Before t) (source : t.source < n) (target : t.target = n) :
      Discovery (ts ++ [t]) (n + 1)

theorem Discovery.ordered {ts : List Transition} {n : Nat} (found : Discovery ts n) :
    ts.Pairwise Transition.Before := by
  induction found with
  | start => exact .nil
  | known _ later _ _ ih =>
    exact List.pairwise_append.mpr ⟨ih, List.pairwise_singleton _ _, by simpa using later⟩
  | fresh _ later _ _ ih =>
    exact List.pairwise_append.mpr ⟨ih, List.pairwise_singleton _ _, by simpa using later⟩

/-- What is told of edges, one after another, and of the states that they have led to. -/
inductive Told (d : Dfa) : List Transition → Nat → List Event → Prop where
  | start : Told d [] 1 []
  | known {ts : List Transition} {n : Nat} {log : List Event} {t : Transition}
      (past : Told d ts n log) (source : t.source < n) (target : t.target < n) :
      Told d (ts ++ [t]) n (log ++ [.added (d.shown t)])
  | fresh {ts : List Transition} {n : Nat} {log : List Event} {t : Transition}
      (past : Told d ts n log) (source : t.source < n) (target : t.target = n) :
      Told d (ts ++ [t]) (n + 1) (log ++ [.discovered (d.shownState n), .added (d.shown t)])

theorem shown_congr {d e : Dfa} {t : Transition}
    (source : e.shownState t.source = d.shownState t.source)
    (target : e.shownState t.target = d.shownState t.target) : e.shown t = d.shown t := by
  rw [shown, shown, source, target]

/-- Only what is shown of the states met so far is told. -/
theorem Told.rename {d e : Dfa} {ts : List Transition} {n : Nat} {log : List Event}
    (told : Told d ts n log) (same : ∀ i < n, e.shownState i = d.shownState i) :
    Told e ts n log := by
  induction told with
  | start => exact .start
  | known past source target ih =>
    rw [← shown_congr (same _ source) (same _ target)]
    exact .known (ih same) source target
  | @fresh _ n _ t past source target ih =>
    have earlier : ∀ i < n, e.shownState i = d.shownState i :=
      fun i old => same i (Nat.lt_succ_of_lt old)
    have new : e.shownState n = d.shownState n := same n (Nat.lt_succ_self n)
    rw [← shown_congr (earlier _ source) (target ▸ new), ← new]
    exact .fresh (ih earlier) source target

variable {a : Nfa} {d e : Dfa} {m : StateSet} {i j : StateId} {x : Symbol} {log : List Event}

/-! ### One image -/

theorem Grown.size_eq (g : Grown a m j d e) :
    e.size = if m ∈ d.memberSets then d.size else d.size + 1 := by
  rw [Dfa.size_eq e, g.sets, enlist]
  split
  · exact (Dfa.size_eq d).symm
  · rw [List.length_append, ← Dfa.size_eq]
    rfl

theorem Grown.known_lt (g : Grown a m j d e) (known : m ∈ d.memberSets) : j < d.size := by
  have inside := g.here.1
  rwa [g.size_eq, if_pos known] at inside

theorem Grown.discovery (g : Grown a m j d e)
    (transitions : e.transitions = enlist d.transitions ⟨i, x, j⟩) (exist : i < d.size)
    (later : ∀ u ∈ d.transitions, u.Before ⟨i, x, j⟩) (found : Discovery d.transitions d.size) :
    Discovery e.transitions e.size := by
  have absent : ⟨i, x, j⟩ ∉ d.transitions := fun member =>
    Transition.before_irrefl _ (later _ member)
  rw [transitions, enlist, if_neg absent, g.size_eq]
  split
  · rename_i known
    exact .known found later exist (g.known_lt known)
  · rename_i new
    exact .fresh found later exist (g.last new)

theorem Grown.told (g : Grown a m j d e) (standing : Standing a d)
    (transitions : e.transitions = enlist d.transitions ⟨i, x, j⟩) (exist : i < d.size)
    (absent : ⟨i, x, j⟩ ∉ d.transitions) (told : Told d d.transitions d.size log) :
    Told e e.transitions e.size (log ++ ((if m ∈ d.memberSets then [] else
      [.discovered (e.shownState j)]) ++ [.added (e.shown ⟨i, x, j⟩)])) := by
  have before : Told e d.transitions d.size log :=
    told.rename fun k old => g.shownState_eq standing old
  rw [transitions, enlist, if_neg absent, g.size_eq]
  split
  · rename_i known
    exact .known before exist (g.known_lt known)
  · rename_i new
    obtain rfl := g.last new
    exact .fresh before exist rfl

/-! ### One state -/

/-- The first image is interned and gets its edge before the rest. -/
theorem Explored.connect_cons {pending : StateId → Symbol → Prop} (h : Explored a pending d)
    (bounded : a.Bounded) (exist : i < d.size) (image : (a.images (d.members i)).get? x = some m)
    {rest : List (Symbol × StateSet)} {more : List StateId}
    (ok : connect a i ((x, m) :: rest) d = ⟨e, log, .ok more⟩) :
    ∃ f j log' later, Grown a m j d f ∧ f.transitions = enlist d.transitions ⟨i, x, j⟩ ∧
      connect a i rest f = ⟨e, log', .ok later⟩ ∧
      more = (if m ∈ d.memberSets then later else j :: later) ∧
      log = (if m ∈ d.memberSets then [] else [.discovered (f.shownState j)]) ++
        ((if ⟨i, x, j⟩ ∈ d.transitions then [] else [.added (f.shown ⟨i, x, j⟩)]) ++ log') := by
  obtain ⟨mid, f, j, interned, linked, first, g, transitions⟩ :=
    h.link_succeeds bounded exist image
  have shown : mid.shownState j = f.shownState j := by
    rw [first.standing.shownState_eq first.here.1, g.standing.shownState_eq g.here.1,
      first.here.2, g.here.2]
  rw [Dfa.connect_cons] at ok
  simp only [Edit.bind_ok, Edit.emitIf_ok, Edit.pure_ok, interned] at ok
  obtain ⟨_, _, _, _, same, ⟨_, _, _, _, ⟨rfl, rfl⟩, ⟨_, _, _, _, linked', ⟨_, _, _, _, ⟨rfl, rfl⟩,
    ⟨_, log', later, _, connected, ⟨rfl, rfl, rfl⟩, rfl⟩, rfl⟩, rfl⟩, rfl⟩, rfl⟩ := ok
  cases same
  rw [linked] at linked'
  cases linked'
  refine ⟨f, j, log', later, g, transitions, connected, ?_, ?_⟩
  · by_cases known : m ∈ d.memberSets <;> simp [known]
  · simp [shown]

/-- The edges end before those to the given images of a state. -/
def Awaits (i : StateId) (images : List (Symbol × StateSet)) (ts : List Transition) : Prop :=
  ∀ t ∈ ts, t.source < i ∨ t.source = i ∧ ∀ p ∈ images, t.symbol < p.1

/-- What has become of a discovery when a state is expanded: the new states have the next numbers. -/
structure Continues (i : StateId) (d e : Dfa) (more : List StateId) : Prop where
  found : Discovery e.transitions e.size
  sources : ∀ t ∈ e.transitions, t.source ≤ i
  larger : d.size ≤ e.size
  numbers : more = List.range' d.size (e.size - d.size)

theorem Awaits.link {rest : List (Symbol × StateSet)} {ts : List Transition}
    (awaits : Awaits i ((x, m) :: rest) ts) (smaller : ∀ p ∈ rest, x < p.1) :
    Awaits i rest (enlist ts ⟨i, x, j⟩) := by
  intro t member
  rcases mem_enlist.mp member with old | rfl
  · rcases awaits t old with less | ⟨same, less⟩
    · exact .inl less
    · exact .inr ⟨same, fun p there => less p (List.mem_cons_of_mem _ there)⟩
  · exact .inr ⟨rfl, smaller⟩

theorem Continues.link {f : Dfa} {more : List StateId} (g : Grown a m j d f)
    (h : Continues i f e more) :
    Continues i d e (if m ∈ d.memberSets then more else j :: more) := by
  have size := g.size_eq
  have larger := h.larger
  refine { h with larger := ?_, numbers := ?_ }
  · split at size <;> omega
  · rw [h.numbers]
    split
    · rename_i known
      rw [if_pos known] at size
      rw [size]
    · rename_i new
      rw [if_neg new] at size
      rw [g.last new, size, show e.size - d.size = e.size - (d.size + 1) + 1 by omega, List.range'_succ]

theorem Explored.connect_continues {pending : StateId → Symbol → Prop} (h : Explored a pending d)
    (bounded : a.Bounded) (exist : i < d.size) {images : List (Symbol × StateSet)}
    (listed : ∀ p ∈ images, (a.images (d.members i)).get? p.1 = some p.2)
    (ascending : images.Pairwise (·.1 < ·.1)) (awaits : Awaits i images d.transitions)
    (found : Discovery d.transitions d.size) {past : List Event}
    (told : Told d d.transitions d.size past) {more : List StateId}
    (ok : connect a i images d = ⟨e, log, .ok more⟩) :
    Continues i d e more ∧ Told e e.transitions e.size (past ++ log) := by
  -- Images are sorted, so the edge for the first one comes after all edges that are there.
  induction images generalizing d pending past log more with
  | nil =>
    obtain ⟨rfl, rfl, rfl⟩ := Edit.pure_ok.mp ok
    refine ⟨⟨found, fun t member => ?_, Nat.le_refl _, by simp⟩, by rwa [List.append_nil]⟩
    rcases awaits t member with less | ⟨same, _⟩
    · exact Nat.le_of_lt less
    · exact Nat.le_of_eq same
  | cons image rest ih =>
    obtain ⟨x, m⟩ := image
    obtain ⟨smaller, ascending⟩ := List.pairwise_cons.mp ascending
    have here : (a.images (d.members i)).get? x = some m := listed (x, m) List.mem_cons_self
    obtain ⟨f, j, log', later, g, transitions, connected, rfl, rfl⟩ :=
      h.connect_cons bounded exist here ok
    obtain ⟨inside, kept⟩ := g.kept exist
    have after : ∀ u ∈ d.transitions, u.Before ⟨i, x, j⟩ := by
      intro u member
      rcases awaits u member with less | ⟨same, less⟩
      · exact .inl less
      · exact .inr ⟨same, less _ List.mem_cons_self⟩
    have remaining : ∀ p ∈ rest, (a.images (f.members i)).get? p.1 = some p.2 := by
      intro p member
      rw [kept]
      exact listed p (List.mem_cons_of_mem _ member)
    have absent : ⟨i, x, j⟩ ∉ d.transitions := fun member =>
      Transition.before_irrefl _ (after _ member)
    obtain ⟨continues, tells⟩ := ih (h.link exist here g transitions) inside remaining ascending
      (transitions ▸ awaits.link smaller) (g.discovery transitions exist after found)
      (g.told h.standing transitions exist absent told) connected
    refine ⟨continues.link g, ?_⟩
    rw [if_neg absent]
    simpa only [List.append_assoc] using tells

/-! ### All states -/

/-- The states from `k` on wait in the order of their numbers, those before have all their edges. -/
structure Advanced (k : Nat) (queue : List StateId) (d : Dfa) : Prop where
  inside : k ≤ d.size
  queued : queue = List.range' k (d.size - k)
  sources : ∀ t ∈ d.transitions, t.source < k
  found : Discovery d.transitions d.size

theorem Advanced.expand {k : Nat} {rest more : List StateId} (h : Advanced k (i :: rest) d)
    (bounded : a.Bounded) (queued : Queued a (i :: rest) d) {past : List Event}
    (told : Told d d.transitions d.size past) (ok : expand a i d = ⟨e, log, .ok more⟩) :
    Advanced (k + 1) (rest ++ more) e ∧ Told e e.transitions e.size (past ++ log) := by
  have exist := queued.exist i List.mem_cons_self
  have waiting := h.queued
  obtain ⟨n, size⟩ : ∃ n, d.size - k = n + 1 := by
    cases left : d.size - k with
    | zero => simp [left] at waiting
    | succ n => exact ⟨n, rfl⟩
  rw [size, List.range'_succ] at waiting
  obtain ⟨rfl, rfl⟩ := List.cons.inj waiting
  obtain ⟨continues, tells⟩ := queued.explored.connect_continues bounded exist
    (fun _ member => SymbolMap.mem_entries_iff.mp member) (a.images (d.members i)).ascending
    (fun t member => .inl (h.sources t member)) h.found told (Store.expand_ok ok)
  have larger := continues.larger
  refine ⟨?_, tells⟩
  constructor
  case inside => omega
  case queued =>
    rw [continues.numbers, show d.size = i + 1 + 1 * n by omega, List.range'_append]
    congr 1
    omega
  case sources => exact fun t member => Nat.lt_succ_of_le (continues.sources t member)
  case found => exact continues.found

theorem advanced_start (a : Nfa) :
    Advanced 0 [0] ((emptyFor a).entering (.standing 0 a.initial a)) where
  inside := Nat.zero_le _
  queued := rfl
  sources t member := by cases member
  found := .start

theorem expandAll_advances (bounded : a.Bounded) (queued : Queued a [0] d) (h : Advanced 0 [0] d)
    (told : Told d d.transitions d.size []) (ok : expandAll a 0 d = ⟨e, log, .ok ()⟩) :
    (∃ k, Advanced k [] e) ∧ Told e e.transitions e.size log := by
  obtain ⟨_, _, ran, _, done⟩ := (expansion a).run_succeeds
    (fun queue d past => Queued a queue d ∧ (∃ k, Advanced k queue d) ∧
      Told d d.transitions d.size past)
    (fun before => by
      obtain ⟨queued, ⟨k, advanced⟩, told⟩ := before
      obtain ⟨e, log, more, stepped, next⟩ := expand_succeeds bounded queued
      obtain ⟨advanced, told⟩ := advanced.expand bounded queued told stepped
      exact ⟨e, log, more, stepped, next, ⟨k + 1, advanced⟩, told⟩)
    [] trivial ⟨queued, ⟨0, h⟩, told⟩
  obtain ⟨rfl, rfl, _⟩ := Outcome.mk.inj (ran.symm.trans ok)
  exact done

/-- The edges are listed as they were discovered, and told so before the summary. -/
theorem determinize_tells (bounded : a.Bounded) (ran : a.determinize = ⟨d, log, .ok ()⟩) :
    Discovery d.transitions d.size ∧ ∃ traces, Told d d.transitions d.size traces ∧
      log = traces ++ [.determinized d.size d.transitions.length a.size] := by
  rw [a.determinize_eq, construct_eq] at ran
  split at ran
  · have interned : intern a.initial a (emptyFor a) =
        ⟨(emptyFor a).entering (.standing 0 a.initial a), [], .ok (0, true)⟩ :=
      intern_new rfl bounded.starts
    simp only [Edit.bind_ok, Edit.get_ok, interned] at ran
    obtain ⟨_, _, _, _, same, ⟨_, traces, _, _, expanded, ⟨_, _, _, _, ⟨rfl, rfl, rfl⟩, emitted,
      rfl⟩, rfl⟩, rfl⟩ := ran
    cases same
    obtain ⟨rfl, rfl⟩ := Edit.report_ok.mp emitted
    obtain ⟨⟨k, advanced⟩, told⟩ :=
      expandAll_advances bounded (queued_start a) (advanced_start a) .start expanded
    exact ⟨advanced.found, traces, told, rfl⟩
  · exact (Edit.fail_ok ran).elim

theorem determinize_discovers (bounded : a.Bounded) (ran : a.determinize = ⟨d, log, .ok ()⟩) :
    Discovery d.transitions d.size :=
  (determinize_tells bounded ran).1

end Dfa
end FiniteAutomata
