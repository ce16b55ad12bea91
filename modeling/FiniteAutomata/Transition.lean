import FiniteAutomata.StateSet
import FiniteAutomata.SymbolMap

/-!
Transitions are edges between numbered states, labelled by a symbol. The transitions at one state
are indexed by symbol, in the order in which they were attached; a symbol without a transition
has no entry.
-/

namespace FiniteAutomata

structure Transition where
  source : StateId
  symbol : Symbol
  target : StateId
  deriving DecidableEq

namespace Transition

def isEpsilon (t : Transition) : Bool := t.symbol.isEpsilon

def text (t : Transition) : String :=
  "#" ++ toString t.source ++ " --" ++ t.symbol.label ++ "--> #" ++ toString t.target

/-- By the names of the sources, then by symbol, then by the names of the targets. -/
def order (name : StateId → String) (t u : Transition) : Ordering :=
  (compare (name t.source) (name u.source)).then
    ((compare t.symbol u.symbol).then (compare (name t.target) (name u.target)))

/-- Sorts by `order`; transitions that it does not tell apart stay in their given order. -/
def sorted (name : StateId → String) (ts : List Transition) : List Transition :=
  ts.mergeSort fun t u => (order name t u).isLE

end Transition

abbrev Adjacency := SymbolMap (List Transition)

namespace Adjacency

/-- The transitions on one symbol. -/
def on (index : Adjacency) (x : Symbol) : List Transition := (index.get? x).getD []

/-- All transitions, symbol by symbol. -/
def edges (index : Adjacency) : List Transition := index.values.flatten

def attach (index : Adjacency) (t : Transition) : Adjacency :=
  index.insert t.symbol (index.on t.symbol ++ [t])

/-- Takes out the first occurrence of a transition. -/
def detach (index : Adjacency) (t : Transition) : Option Adjacency :=
  if t ∈ index.on t.symbol then
    match (index.on t.symbol).erase t with
    | [] => some (index.erase t.symbol)
    | rest => some (index.insert t.symbol rest)
  else none

theorem mem_edges {index : Adjacency} {t : Transition} :
    t ∈ index.edges ↔ ∃ e ∈ index.entries, t ∈ e.2 := by
  simp only [edges, SymbolMap.values, List.mem_flatten, List.mem_map]
  grind

theorem mem_edges_of_mem_on {index : Adjacency} {x : Symbol} {t : Transition}
    (h : t ∈ index.on x) : t ∈ index.edges := by
  simp only [on, SymbolMap.get?] at h
  cases found : index.entries.lookup x with
  | none => simp [found] at h
  | some ts =>
    rw [found] at h
    obtain ⟨before, after, split, _⟩ := List.lookup_eq_some_iff.mp found
    exact mem_edges.mpr ⟨(x, ts), by simp [split], h⟩

theorem mem_edges_attach {index : Adjacency} {t u : Transition} (h : u ∈ (index.attach t).edges) :
    u = t ∨ u ∈ index.edges := by
  obtain ⟨e, he, hu⟩ := mem_edges.mp h
  rcases SymbolMap.mem_place he with rfl | he
  · rcases List.mem_append.mp hu with hu | hu
    · exact .inr (mem_edges_of_mem_on hu)
    · exact .inl (by simpa using hu)
  · exact .inr (mem_edges.mpr ⟨e, he, hu⟩)

end Adjacency
end FiniteAutomata
