import FiniteAutomata.Nfa.Elimination
import FiniteAutomata.Proofs.Search
import FiniteAutomata.Proofs.WellFormed

/-!
Epsilon paths lead along listed transitions on the empty word. The search for an epsilon closure
finds exactly the states that such paths lead to.
-/

namespace FiniteAutomata.Nfa

def EpsilonStep (a : Nfa) (p q : StateId) : Prop := ⟨p, .epsilon, q⟩ ∈ a.transitions

abbrev EpsilonPath (a : Nfa) : StateId → StateId → Prop := Relation.ReflTransGen a.EpsilonStep

namespace WellFormed

variable {a : Nfa}

theorem edge_epsilonGraph (h : WellFormed a) {p q : StateId} :
    a.epsilonGraph.Edge p q ↔ a.EpsilonStep p q := by
  have indexed : a.epsilonGraph.Edge p q ↔ q ∈ (a.outboundOn p .epsilon).map Transition.target := by
    unfold Graph.Edge epsilonGraph outboundOn
    rw [List.getElem?_map]
    cases a.states[p]? <;> simp
  rw [indexed, List.mem_map]
  constructor
  · intro found
    obtain ⟨⟨source, symbol, target⟩, member, rfl⟩ := found
    obtain ⟨listed, rfl, rfl⟩ := h.mem_outboundOn.mp member
    exact listed
  · intro listed
    exact ⟨_, h.mem_outboundOn.mpr ⟨listed, rfl, rfl⟩, rfl⟩

theorem path_epsilonGraph (h : WellFormed a) {p q : StateId} :
    a.epsilonGraph.Path p q ↔ a.EpsilonPath p q := by
  have same : a.epsilonGraph.Edge = a.EpsilonStep := by
    funext p q
    exact propext h.edge_epsilonGraph
  unfold Graph.Path EpsilonPath
  rw [same]

theorem epsilonPath_lt (h : WellFormed a) {p q : StateId} (start : p < a.size)
    (path : a.EpsilonPath p q) : q < a.size := by
  cases path with
  | refl => exact start
  | tail _ last => exact (h.ends _ last).2

theorem epsilonClosure_succeeds (h : WellFormed a) {start : StateSet}
    (exist : ∀ q ∈ start, q < a.size) :
    ∃ s, a.epsilonClosure start = .ok s ∧ ∀ q, q ∈ s.seen ↔ ∃ p ∈ start, a.EpsilonPath p q := by
  have length : a.epsilonGraph.length = a.size := List.length_map _
  have inside : a.epsilonGraph.Inside start := by
    constructor
    · intro q member
      rw [length]
      exact exist q member
    · intro p q edge
      rw [length]
      exact (h.ends _ (h.edge_epsilonGraph.mp edge)).2
  obtain ⟨s, found, seen⟩ := Graph.explore_succeeds inside
  exact ⟨s, found, fun q => by simp only [seen, h.path_epsilonGraph]⟩

end WellFormed
end FiniteAutomata.Nfa
