import FiniteAutomata.Graph
import FiniteAutomata.Nfa.Saturation

/-!
Removal of epsilon transitions without a change of the accepted language. The initial states are
closed under epsilon, the epsilon transitions are closed under composition, their sources inherit
acceptance from their targets and their targets inherit the letters that enter their sources;
after that the epsilon transitions are dropped.
-/

namespace FiniteAutomata.Nfa

def epsilonGraph (a : Nfa) : Graph :=
  a.states.map fun q => (q.outbound.on .epsilon).map Transition.target

/-- All states that epsilon transitions lead to. -/
def epsilonClosure (a : Nfa) (start : StateSet) : Except Error Search :=
  a.epsilonGraph.explore start

def closeInitial : Edit Nfa Unit := do
  let a ← Edit.get
  let met ← Edit.ofExcept (a.epsilonClosure a.initial)
  Edit.set { a with initial := met.seen }
  Edit.report (met.found.map fun q => .initialThroughEpsilon (a.nameOf q))
  Edit.emit (.initialClosed met.found.length)

/-- From p to q and from q to r there is a way from p to r. -/
def composition : Rule where
  calls a t := (a.inboundOn t.source .epsilon).map fun u => ⟨u.source, .epsilon, t.target⟩
  aimed member := by
    obtain ⟨_, _, rfl⟩ := List.mem_map.mp member
    rfl
  labelled epsilon _ member := by
    obtain ⟨_, _, rfl⟩ := List.mem_map.mp member
    exact epsilon

/-- A letter that enters the source of an epsilon transition also enters its target. -/
def shortcut : Rule where
  calls a t := ((a.edgesTo t.source).filter (!·.isEpsilon)).map fun u =>
    ⟨u.source, u.symbol, t.target⟩
  aimed member := by
    obtain ⟨_, _, rfl⟩ := List.mem_map.mp member
    rfl
  labelled _ entered member := by
    obtain ⟨u, hu, rfl⟩ := List.mem_map.mp member
    have hu := (List.mem_filter.mp hu).1
    simp only [edgesTo] at hu
    split at hu
    · rename_i found
      exact entered _ (List.mem_of_getElem? found) u hu
    · simp at hu

/-- Saturates under a rule and reports how many transitions that added. -/
def saturateReporting (rule : Rule) (event : Nat → Event) : Edit Nfa Unit := do
  let before := (← Edit.get).transitions.length
  saturate rule
  let after := (← Edit.get).transitions.length
  Edit.emit (event (after - before))

/-- Sources of transitions into accepting states become accepting; returns how many do. -/
def inheritAcceptance : List Transition → Edit Nfa Nat
  | [] => return 0
  | t :: rest => do
    let a ← Edit.get
    if a.isAccepting t.target && !a.isAccepting t.source then
      let _ ← promote t.source
      Edit.emit (.acceptingThroughEpsilon (a.nameOf t.source))
      return (← inheritAcceptance rest) + 1
    else
      inheritAcceptance rest

def promoteAccepting : Edit Nfa Unit := do
  let count ← inheritAcceptance (← Edit.get).epsilonTransitions
  Edit.emit (.promoted count)

def removeAll : List Transition → Edit Nfa Unit
  | [] => pure ()
  | t :: rest => do
    removeTransition t
    removeAll rest

def discardEpsilon : Edit Nfa Unit := do
  let epsilons := (← Edit.get).epsilonTransitions
  removeAll epsilons
  Edit.emit (.discarded epsilons.length)

/-- The first epsilon transition that is still listed at some state. -/
def leftover? (a : Nfa) : Option Transition :=
  a.states.findSome? fun q => (q.outbound.on .epsilon ++ q.inbound.on .epsilon).head?

def verifyEpsilonFree : Edit Nfa Unit := do
  let a ← Edit.get
  match a.leftover? with
  | none => pure ()
  | some t => Edit.fail (.epsilonRemains (← Edit.ofExcept (a.shown? t)))

def eliminateEpsilons : Edit Nfa Unit := do
  let a ← Edit.get
  Edit.emit (.eliminating a.epsilonTransitions.length a.size)
  closeInitial
  saturateReporting composition .epsilonClosed
  promoteAccepting
  saturateReporting shortcut .shortcutsAdded
  discardEpsilon
  verifyEpsilonFree

end FiniteAutomata.Nfa
