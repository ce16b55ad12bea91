import FiniteAutomata.Graph
import Mathlib.Logic.Relation

/-!
A search in a graph whose edges stay inside it succeeds, and what it has seen is exactly what a path
leads to from the start.
-/

namespace FiniteAutomata

/-- Lists what has a property, each once. -/
structure Lists {α : Type} (l : List α) (P : α → Prop) : Prop where
  nodup : l.Nodup
  mem_iff : ∀ {x}, x ∈ l ↔ P x

namespace Lists

variable {α : Type} {k l : List α} {P Q : α → Prop}

theorem congr (h : Lists l P) (same : ∀ x, P x ↔ Q x) : Lists l Q where
  nodup := h.nodup
  mem_iff := h.mem_iff.trans (same _)

theorem cons (h : Lists l P) {x : α} (new : ¬ P x) : Lists (x :: l) fun y => y = x ∨ P y where
  nodup := List.nodup_cons.mpr ⟨fun member => new (h.mem_iff.mp member), h.nodup⟩
  mem_iff := List.mem_cons.trans (or_congr Iff.rfl h.mem_iff)

theorem append (h : Lists k P) (h' : Lists l Q) (apart : ∀ x, P x → ¬ Q x) :
    Lists (k ++ l) fun x => P x ∨ Q x where
  nodup := by
    refine List.nodup_append.mpr ⟨h.nodup, h'.nodup, ?_⟩
    rintro x first _ second rfl
    exact apart x (h.mem_iff.mp first) (h'.mem_iff.mp second)
  mem_iff := List.mem_append.trans (or_congr h.mem_iff h'.mem_iff)

end Lists

namespace Graph

def Edge (g : Graph) (p q : StateId) : Prop := ∃ targets, g[p]? = some targets ∧ q ∈ targets

abbrev Path (g : Graph) : StateId → StateId → Prop := Relation.ReflTransGen g.Edge

/-- The start is inside, and no edge leads out. -/
structure Inside (g : Graph) (start : StateSet) : Prop where
  start : ∀ q ∈ start, q < g.length
  edge : ∀ {p q}, g.Edge p q → q < g.length

/-- What has been seen is reached from the start, and every edge of a node that no longer waits
leads to a node that has been seen. -/
structure Frontier (g : Graph) (start : StateSet) (queue : List StateId) (s : Search) : Prop where
  started : ∀ q ∈ start, q ∈ s.seen
  waiting : ∀ q ∈ queue, q ∈ s.seen
  reached : ∀ q ∈ s.seen, ∃ p ∈ start, g.Path p q
  followed : ∀ p ∈ s.seen, p ∈ queue ∨ ∀ q, g.Edge p q → q ∈ s.seen

variable {g : Graph} {start : StateSet}

theorem frontier_start (g : Graph) (start : StateSet) : g.Frontier start start.toList ⟨start, []⟩ where
  started _ member := member
  waiting _ member := member
  reached q member := ⟨q, member, .refl⟩
  followed _ member := .inl member

theorem Inside.path {p q : StateId} (inside : g.Inside start) (member : p ∈ start)
    (path : g.Path p q) : q < g.length := by
  induction path with
  | refl => exact inside.start p member
  | tail _ edge _ => exact inside.edge edge

theorem Frontier.visit {q : StateId} {rest : List StateId} {s : Search} (inside : g.Inside start)
    (h : g.Frontier start (q :: rest) s) :
    ∃ t fresh, g.visit q s = ⟨t, [], .ok fresh⟩ ∧ g.Frontier start (rest ++ fresh) t := by
  have seen : q ∈ s.seen := h.waiting q List.mem_cons_self
  obtain ⟨origin, member, path⟩ := h.reached q seen
  obtain ⟨targets, found⟩ : ∃ targets, g[q]? = some targets :=
    ⟨_, List.getElem?_eq_getElem (inside.path member path)⟩
  refine ⟨⟨(s.seen.visit targets).1, s.found ++ (s.seen.visit targets).2⟩, (s.seen.visit targets).2,
    by simp only [Graph.visit, found], ?_⟩
  constructor
  · intro p hp
    exact StateSet.mem_visit.mpr (.inl (h.started p hp))
  · intro p hp
    rcases List.mem_append.mp hp with hp | hp
    · exact StateSet.mem_visit.mpr (.inl (h.waiting p (List.mem_cons_of_mem q hp)))
    · exact StateSet.mem_visit.mpr (.inr (StateSet.mem_visit_new.mp hp).2)
  · intro p hp
    rcases StateSet.mem_visit.mp hp with old | edge
    · exact h.reached p old
    · exact ⟨origin, member, path.tail ⟨targets, found, edge⟩⟩
  · intro p hp
    by_cases new : p ∈ s.seen
    · rcases h.followed p new with waits | done
      · rcases List.mem_cons.mp waits with rfl | waits
        · refine .inr fun r leads => ?_
          obtain ⟨ts, at_p, edge⟩ := leads
          obtain rfl : targets = ts := Option.some.inj (found.symm.trans at_p)
          exact StateSet.mem_visit.mpr (.inr edge)
        · exact .inl (List.mem_append_left _ waits)
      · exact .inr fun r edge => StateSet.mem_visit.mpr (.inl (done r edge))
    · have entered := (StateSet.mem_visit.mp hp).resolve_left new
      exact .inl (List.mem_append_right _ (StateSet.mem_visit_new.mpr ⟨new, entered⟩))

theorem Frontier.seen_iff {s : Search} (h : g.Frontier start [] s) {q : StateId} :
    q ∈ s.seen ↔ ∃ p ∈ start, g.Path p q := by
  constructor
  · exact h.reached q
  · intro found
    obtain ⟨p, member, path⟩ := found
    induction path with
    | refl => exact h.started p member
    | tail _ edge ih => exact (h.followed _ ih).resolve_left List.not_mem_nil _ edge

theorem explore_succeeds (inside : g.Inside start) :
    ∃ s, g.explore start = .ok s ∧ ∀ q, q ∈ s.seen ↔ ∃ p ∈ start, g.Path p q := by
  obtain ⟨s, log, ran, frontier⟩ := g.search.run_succeeds
    (fun queue s _ => g.Frontier start queue s)
    (fun h => by
      obtain ⟨t, fresh, visited, next⟩ := h.visit inside
      exact ⟨t, [], fresh, visited, next⟩)
    [] trivial (frontier_start g start)
  refine ⟨s, ?_, fun q => frontier.seen_iff⟩
  simp only [explore, ran]
  rfl

/-- Where no edge leaves the start, nothing else is met. -/
theorem explore_still (still : ∀ q ∈ start, g[q]? = some []) : g.explore start = .ok ⟨start, []⟩ := by
  obtain ⟨s, log, ran, same, _⟩ := g.search.run_succeeds
    (fun queue s _ => s = ⟨start, []⟩ ∧ ∀ q ∈ queue, g[q]? = some [])
    (fun {q rest s past} ⟨same, waits⟩ => by
      have none : g.visit q s = ⟨s, [], .ok []⟩ := by
        simp only [visit, waits q List.mem_cons_self, StateSet.visit, List.append_nil]
      refine ⟨s, [], [], none, same, fun p member => waits p ?_⟩
      rw [List.append_nil] at member
      exact List.mem_cons_of_mem q member)
    [] trivial ⟨rfl, still⟩
  simp only [explore, ran, same]
  rfl

/-- What is met on the way is what has been seen beyond the start. -/
structure Met (start : StateSet) (s : Search) : Prop where
  started : ∀ q ∈ start, q ∈ s.seen
  beyond : Lists s.found fun q => q ∈ s.seen ∧ q ∉ start

theorem Met.visit {s : Search} (h : Met start s) (targets : List StateId) :
    Met start ⟨(s.seen.visit targets).1, s.found ++ (s.seen.visit targets).2⟩ := by
  constructor
  · exact fun q member => StateSet.mem_visit.mpr (.inl (h.started q member))
  · refine (h.beyond.append (Q := fun q => q ∉ s.seen ∧ q ∈ targets)
      ⟨s.seen.nodup_visit_new targets, StateSet.mem_visit_new⟩ ?_).congr fun q => ?_
    · exact fun q seen new => new.1 seen.1
    · rw [StateSet.mem_visit]
      by_cases seen : q ∈ s.seen
      · simp only [seen, true_and, not_true_eq_false, false_and, or_false, true_or]
      · have other : q ∉ start := fun member => seen (h.started q member)
        simp only [seen, other, not_false_eq_true, true_and, false_or, and_true]

/-- What is met on the way is listed once, whatever the graph is like. -/
theorem explore_met {s : Search} (explored : g.explore start = .ok s) : Met start s := by
  have step (q : StateId) : Edit.Keeps (Met start) (g.visit q) := by
    intro s before
    unfold visit
    split
    · exact before
    · exact before.visit _
  have first : Met start ⟨start, []⟩ := ⟨fun _ member => member, .nil, by simp⟩
  have kept := @Worklist.run_keeps _ _ g.search _ step start.toList ⟨start, []⟩ trivial first
  unfold explore at explored
  match ran : g.search.run start.toList ⟨start, []⟩ trivial with
  | ⟨t, log, .error e⟩ =>
    rw [ran] at explored
    cases explored
  | ⟨t, log, .ok ()⟩ =>
    rw [ran] at explored kept
    obtain rfl := Except.ok.inj explored
    exact kept

theorem found_seen {s : Search} (explored : g.explore start = .ok s) :
    ∀ q ∈ s.found, q ∈ s.seen :=
  fun _ member => ((explore_met explored).beyond.mem_iff.mp member).1

end Graph
end FiniteAutomata
