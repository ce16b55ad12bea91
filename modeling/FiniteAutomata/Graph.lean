import FiniteAutomata.StateSet
import FiniteAutomata.Worklist

/-!
Search in a directed graph. A graph lists the targets of each node's edges; a search meets every
node that a path leads to from the start, and fails if it has to leave a node that is not there.
-/

namespace FiniteAutomata

abbrev Graph := List (List StateId)

structure Search where
  seen : StateSet
  /-- The nodes met on the way, in the order in which they were met. -/
  found : List StateId := []

namespace Graph

def visit (g : Graph) (q : StateId) : Edit Search (List StateId) := fun s =>
  match g[q]? with
  | none => ⟨s, [], .error (.outOfRange q)⟩
  | some targets =>
    let (seen, fresh) := s.seen.visit targets
    ⟨⟨seen, s.found ++ fresh⟩, [], .ok fresh⟩

def unseen (g : Graph) (s : Search) : Nat := g.flatten.countP (· ∉ s.seen)

theorem visit_ok {g : Graph} {q : StateId} {s t : Search} {log : List Event}
    {fresh : List StateId} (ok : g.visit q s = ⟨t, log, .ok fresh⟩) :
    ∃ targets, g[q]? = some targets ∧ t.seen = (s.seen.visit targets).1 ∧
      t.found = s.found ++ fresh ∧ fresh = (s.seen.visit targets).2 := by
  simp only [visit] at ok
  split at ok
  · simp at ok
  · rename_i targets h
    simp only [Outcome.mk.injEq, Except.ok.injEq] at ok
    obtain ⟨rfl, _, rfl⟩ := ok
    exact ⟨targets, h, rfl, rfl, rfl⟩

/-- Each node that is met for the first time was unseen. -/
theorem unseen_add_length_le {g : Graph} {q : StateId} {s t : Search} {log : List Event}
    {fresh : List StateId} (ok : g.visit q s = ⟨t, log, .ok fresh⟩) :
    g.unseen t + fresh.length ≤ g.unseen s := by
  obtain ⟨targets, at_q, seen, _, new⟩ := visit_ok ok
  refine countP_add_length_le (fun p => ?_) (new ▸ s.seen.nodup_visit_new targets) fun p member => ?_
  · simp only [seen, StateSet.mem_visit, decide_eq_true_eq]
    exact fun h h' => h (.inl h')
  · obtain ⟨unseen, edge⟩ := StateSet.mem_visit_new.mp (new ▸ member)
    refine ⟨List.mem_flatten.mpr ⟨targets, List.mem_of_getElem? at_q, edge⟩, by simpa using unseen, ?_⟩
    simp [seen, StateSet.mem_visit, edge]

theorem unseen_le {g : Graph} {q : StateId} {s t : Search} {log : List Event}
    {fresh : List StateId} (ok : g.visit q s = ⟨t, log, .ok fresh⟩) : g.unseen t ≤ g.unseen s := by
  have := unseen_add_length_le ok
  omega

theorem unseen_lt {g : Graph} {q : StateId} {s t : Search} {log : List Event}
    {fresh : List StateId} (ok : g.visit q s = ⟨t, log, .ok fresh⟩) (some : fresh ≠ []) :
    g.unseen t < g.unseen s := by
  have := unseen_add_length_le ok
  have := List.length_pos_iff.mpr some
  omega

def search (g : Graph) : Worklist Search StateId where
  step := g.visit
  valid _ := True
  bound := g.unseen
  keeps _ _ := trivial
  bound_le _ := unseen_le
  bound_lt _ := unseen_lt

/-- All nodes that can be reached from the start, itself included. -/
def explore (g : Graph) (start : StateSet) : Except Error Search :=
  let found := g.search.run start.toList ⟨start, []⟩ trivial
  found.result.map fun _ => found.final

end Graph
end FiniteAutomata
