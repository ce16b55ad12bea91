import FiniteAutomata.Comparison
import FiniteAutomata.Proofs.Assembly
import FiniteAutomata.Proofs.Search
import FiniteAutomata.Proofs.Termination
import Mathlib

/-!
The check for states that cannot be reached compares numbers only: how many states a search meets, and
how many there are. That is enough, for the search meets every state that a word leads to, once, and
nothing that is not a state.
-/

namespace FiniteAutomata

theorem StateSet.length_eq_iff {s : StateSet} {n : Nat} (bound : ∀ q ∈ s, q < n) :
    s.toList.length = n ↔ ∀ q < n, q ∈ s := by
  have inside : s.toList ⊆ List.range n := fun q member => List.mem_range.mpr (bound q member)
  constructor
  · intro full q exist
    have perm := (List.subperm_of_subset s.nodup inside).perm_of_length_le (by simp [full])
    exact perm.mem_iff.mpr (List.mem_range.mpr exist)
  · intro all
    have least : (List.range n).length ≤ s.toList.length :=
      List.nodup_range.length_le_of_subset fun q exist => all q (List.mem_range.mp exist)
    have most : s.toList.length ≤ (List.range n).length := s.nodup.length_le_of_subset inside
    rw [List.length_range] at least most
    exact Nat.le_antisymm most least

namespace Dfa

variable {d e : Dfa} {a : Nfa} {m : StateSet} {i j : StateId} {x : Symbol}

/-! ### Whatever is determinized is well-formed -/

theorem WellFormed.intern_cases (h : WellFormed d) (m : StateSet) (a : Nfa) :
    (∃ e j fresh, intern m a d = ⟨e, [], .ok (j, fresh)⟩ ∧ WellFormed e ∧ d.size ≤ e.size ∧
      j < e.size) ∨ ∃ error, intern m a d = ⟨d, [], .error error⟩ := by
  cases found : d.find? m with
  | some q => exact .inl ⟨d, q.id, false, intern_known found, h, Nat.le_refl _, (h.find?_eq_some found).1⟩
  | none =>
    cases made : State.ofMembers d.size m a with
    | ok q =>
      obtain ⟨_, _, exist⟩ := State.ofMembers_ok made
      refine .inl ⟨_, d.size, true, intern_new found exist, h.entering (find?_eq_none found), ?_, ?_⟩
      · rw [size_entering]
        exact Nat.le_succ _
      · rw [size_entering]
        exact Nat.lt_succ_self _
    | error error => exact .inr ⟨error, by simp only [intern, found, made]⟩

theorem addTransition_leads (i : StateId) (x : Symbol) (j : StateId) :
    Edit.Leads (fun d => WellFormed d ∧ i < d.size ∧ j < d.size) (fun d => WellFormed d ∧ i < d.size)
      (addTransition ⟨i, x, j⟩) := by
  rintro d ⟨h, source, target⟩
  obtain ⟨_, ran⟩ | ⟨_, _, _, ran⟩ | ⟨_, ran, wellFormed⟩ :=
    h.addTransition_cases (t := ⟨i, x, j⟩) source target
  · rw [ran]
    exact ⟨h, source⟩
  · rw [ran]
    exact ⟨h, source⟩
  · rw [ran, size_including]
    exact ⟨wellFormed, source⟩

theorem connect_keeps (a : Nfa) (i : StateId) (images : List (Symbol × StateSet)) :
    Edit.Keeps (fun d => WellFormed d ∧ i < d.size) (connect a i images) := by
  induction images with
  | nil => exact Edit.Keeps.pure []
  | cons image rest ih =>
    obtain ⟨x, m⟩ := image
    rintro d ⟨h, source⟩
    rw [connect_cons]
    rcases h.intern_cases m a with ⟨e, j, fresh, ran, h', larger, target⟩ | ⟨error, failed⟩
    · let linked (d : Dfa) : Prop := WellFormed d ∧ i < d.size ∧ j < d.size
      rw [Edit.final_bind_of_ok ran]
      refine Edit.Leads.bind (P := linked) (Q := fun d => WellFormed d ∧ i < d.size)
        (Edit.Keeps.emitIf fresh _) (fun _ h => ⟨h.1, h.2.1⟩) (fun _ => ?_) e
        ⟨h', Nat.lt_of_lt_of_le source larger, target⟩
      refine Edit.Leads.bind (addTransition_leads i x j) (fun _ => id) fun added => ?_
      refine Edit.Keeps.bind (Edit.Keeps.emitIf added _) fun _ => ?_
      exact Edit.Keeps.bind ih fun more => Edit.Keeps.pure _
    · rw [Edit.bind_of_error failed]
      exact ⟨h, source⟩

/-- What is no state has no members, so there is nothing to connect it with. -/
theorem expand_keeps (a : Nfa) (i : StateId) : Edit.Keeps WellFormed (expand a i) := by
  intro d h
  show WellFormed (connect a i (a.images (d.members i)).entries d).final
  by_cases exist : i < d.size
  · exact (connect_keeps a i _ d ⟨h, exist⟩).1
  · have missing : d.states[i]? = none := List.getElem?_eq_none_iff.mpr (Nat.not_lt.mp exist)
    have none : d.members i = ∅ := by rw [members, missing]
    rw [none]
    exact h

theorem wellFormed_of_determinize {log : List Event} (ran : a.determinize = ⟨d, log, .ok ()⟩) :
    WellFormed d := by
  rw [a.determinize_eq, construct_eq] at ran
  split at ran
  · obtain ⟨e, _, start, _, interned, ran, _⟩ := Edit.bind_ok.mp ran
    obtain ⟨f, _, _, _, expanded, ran, _⟩ := Edit.bind_ok.mp ran
    obtain ⟨_, _, _, _, got, ran, _⟩ := Edit.bind_ok.mp ran
    obtain ⟨rfl, _, _⟩ := Edit.get_ok.mp got
    obtain ⟨rfl, _⟩ := Edit.report_ok.mp ran
    have entered : WellFormed e := by
      rcases (wellFormed_emptyFor a).intern_cases a.initial a with
        ⟨_, _, _, same, h, _⟩ | ⟨_, failed⟩
      · cases same.symm.trans interned
        exact h
      · cases failed.symm.trans interned
    have kept : WellFormed (expandAll a start.1 e).final :=
      (expansion a).run_keeps (expand_keeps a) trivial entered
    rwa [expanded] at kept
  · cases ran

/-! ### Paths in the graph -/

namespace WellFormed

theorem mem_successors (h : WellFormed d) {q : State} (found : d.states[i]? = some q) :
    j ∈ q.successors ↔ d.Step i j := by
  have mirrors := h.mirrored q (List.mem_of_getElem? found)
  have number := h.numbered i q found
  simp only [State.successors, SymbolMap.values, List.mem_map, Step]
  constructor
  · rintro ⟨_, ⟨⟨x, t⟩, entry, rfl⟩, rfl⟩
    obtain ⟨listed, source, _⟩ := (mirrors.outbound x t).mp (SymbolMap.mem_entries_iff.mp entry)
    refine ⟨t.symbol, ?_⟩
    rw [← number, ← source]
    exact listed
  · rintro ⟨x, listed⟩
    have entry := (mirrors.outbound x ⟨i, x, j⟩).mpr ⟨listed, number.symm, rfl⟩
    exact ⟨_, ⟨(x, _), SymbolMap.mem_entries_iff.mpr entry, rfl⟩, rfl⟩

theorem graph_edge_iff (h : WellFormed d) : d.graph.Edge i j ↔ d.Step i j := by
  unfold Graph.Edge graph
  rw [List.getElem?_map]
  cases found : d.states[i]? with
  | none =>
    have missing : ¬ i < d.size := Nat.not_lt.mpr (List.getElem?_eq_none_iff.mp found)
    constructor
    · rintro ⟨_, absurd, _⟩
      cases absurd
    · rintro ⟨x, listed⟩
      exact (missing (h.ends _ listed).1).elim
  | some q =>
    rw [← h.mem_successors found]
    constructor
    · rintro ⟨_, here, member⟩
      obtain rfl := Option.some.inj here
      exact member
    · intro member
      exact ⟨_, rfl, member⟩

theorem graph_inside (h : WellFormed d) (some : 0 < d.size) : d.graph.Inside (.ofList [0]) := by
  have length : d.graph.length = d.size := List.length_map _
  constructor
  case start =>
    intro q member
    rw [List.mem_singleton.mp (StateSet.mem_ofList.mp member), length]
    exact some
  case edge =>
    intro i j edge
    obtain ⟨x, listed⟩ := h.graph_edge_iff.mp edge
    rw [length]
    exact (h.ends _ listed).2

theorem initial_id (h : WellFormed d) {q : State} (first : d.initial = some q) :
    q.id = 0 ∧ 0 < d.size := by
  rw [initial, List.head?_eq_getElem?] at first
  exact ⟨h.numbered 0 q first, (List.getElem?_eq_some_iff.mp first).1⟩

/-- The search meets the states that words lead to. -/
theorem reachable_succeeds (h : WellFormed d) :
    ∃ seen, d.reachable = .ok seen ∧ ∀ i, i ∈ seen ↔ i < d.size ∧ ∃ w, d.follow 0 w = some i := by
  unfold reachable
  cases first : d.initial with
  | none =>
    have empty : d.size = 0 := List.length_eq_zero_iff.mpr (List.head?_eq_none_iff.mp first)
    refine ⟨∅, rfl, fun i => iff_of_false (StateSet.not_mem_empty i) ?_⟩
    rw [empty]
    exact fun absurd => Nat.not_lt_zero i absurd.1
  | some q =>
    obtain ⟨number, some⟩ := h.initial_id first
    have inside := h.graph_inside some
    obtain ⟨s, explored, seen⟩ := Graph.explore_succeeds inside
    have start : 0 ∈ StateSet.ofList [0] := StateSet.mem_ofList.mpr List.mem_cons_self
    have path (i : StateId) : i ∈ s.seen ↔ d.graph.Path 0 i := by
      rw [seen]
      constructor
      · rintro ⟨p, member, path⟩
        rwa [List.mem_singleton.mp (StateSet.mem_ofList.mp member)] at path
      · intro path
        exact ⟨0, start, path⟩
    refine ⟨s.seen, ?_, fun i => ?_⟩
    · simp only [number, explored]
      rfl
    · have same : d.graph.Edge = d.Step := funext fun _ => funext fun _ => propext h.graph_edge_iff
      rw [h.exists_follow_iff, ← same, path]
      constructor
      · intro leads
        have exist := inside.path start leads
        rw [graph, List.length_map] at exist
        exact ⟨exist, leads⟩
      · exact And.right

theorem checkReachable_cases (h : WellFormed d) :
    (d.checkReachable = .ok none ∧ ∀ i < d.size, ∃ w, d.follow 0 w = some i) ∨
      d.checkReachable = .ok (some .unreachable) ∧ ∃ i < d.size, ∀ w, d.follow 0 w ≠ some i := by
  obtain ⟨seen, ran, reached⟩ := h.reachable_succeeds
  have check : d.checkReachable =
      .ok (if seen.toList.length = d.size then none else some .unreachable) := by
    rw [checkReachable, ran]
    rfl
  have full := StateSet.length_eq_iff fun q member => ((reached q).mp member).1
  by_cases all : seen.toList.length = d.size
  · rw [if_pos all] at check
    exact .inl ⟨check, fun i exist => ((reached i).mp (full.mp all i exist)).2⟩
  · rw [if_neg all] at check
    rw [full] at all
    push Not at all
    obtain ⟨i, exist, absent⟩ := all
    exact .inr ⟨check, i, exist, fun w there => absent ((reached i).mpr ⟨exist, w, there⟩)⟩

end WellFormed

/-! ### The check -/

/-- Put together by any possible operations, or by determinization. -/
inductive Obtained : Dfa → Prop
  | assembled {a : Nfa} {s : Indexed} (h : Indexed.Assembled a s) : Obtained s.dfa
  | determinized {a : Nfa} {s : Indexed} {log : List Event}
      (ran : Indexed.determinize a = ⟨s, log, .ok ()⟩) : Obtained s.dfa

theorem Obtained.wellFormed (h : Obtained d) : WellFormed d := by
  cases h with
  | assembled h => exact h.faithful.wellFormed
  | determinized ran => exact wellFormed_of_determinize (Indexed.determinize_dfa ran)

/-- The check's search ends, and the check passes if every state can be reached by a word. -/
structure ReachabilityChecked (d : Dfa) : Prop where
  ends : ∀ q, d.initial = some q → ∃ n outcome,
    Ends d.graph.visit n [q.id] ⟨.ofList [q.id], []⟩ outcome ∧ n ≤ 1 + d.graph.flatten.length ∧
      d.reachable = outcome.result.map fun _ => outcome.final.seen
  passes : d.checkReachable = .ok none ↔ ∀ i < d.size, ∃ w, d.follow 0 w = some i
  fails : d.checkReachable = .ok (some .unreachable) ↔ ∃ i < d.size, ∀ w, d.follow 0 w ≠ some i

theorem WellFormed.reachabilityChecked (h : WellFormed d) : ReachabilityChecked d where
  ends q first := by
    obtain ⟨n, outcome, ends, bound, explored⟩ := d.graph.explore_ends (.ofList [q.id])
    refine ⟨n, outcome, ends, bound, ?_⟩
    simp only [reachable, first, explored]
    cases outcome.result <;> rfl
  passes := by
    rcases h.checkReachable_cases with ⟨passed, all⟩ | ⟨failed, i, exist, unreached⟩
    · exact iff_of_true passed all
    · refine iff_of_false (fun passed => by cases failed.symm.trans passed) fun all => ?_
      obtain ⟨w, there⟩ := all i exist
      exact unreached w there
  fails := by
    rcases h.checkReachable_cases with ⟨passed, all⟩ | ⟨failed, unreached⟩
    · refine iff_of_false (fun failed => by cases passed.symm.trans failed) ?_
      rintro ⟨i, exist, unreached⟩
      obtain ⟨w, there⟩ := all i exist
      exact unreached w there
    · exact iff_of_true failed unreached

/-- Whatever is put together, in one piece or not, the check tells. -/
theorem Obtained.reachability_checked (h : Obtained d) : ReachabilityChecked d :=
  h.wellFormed.reachabilityChecked

/-- The third state is on its own. -/
theorem reachability_checked_patchwork :
    ∃ i < (Indexed.run (Indexed.emptyFor {}) Indexed.patchwork).dfa.size,
      ∀ w, (Indexed.run (Indexed.emptyFor {}) Indexed.patchwork).dfa.follow 0 w ≠ some i := by
  have assembled : Indexed.Assembled {} (Indexed.run (Indexed.emptyFor {}) Indexed.patchwork) :=
    ⟨Indexed.patchwork, by decide, rfl⟩
  have checked := Obtained.reachability_checked (.assembled assembled)
  exact checked.fails.mp (by cbv)

end Dfa
end FiniteAutomata
