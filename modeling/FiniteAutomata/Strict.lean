import FiniteAutomata.Dfa.Subset
import FiniteAutomata.Nfa.Elimination

/-!
Elimination and determinization that trust no number. The views of an automaton show nothing of a
state that does not exist. Here every state is looked up before it is viewed, and the first one that
is not found is an error.
-/

namespace FiniteAutomata

namespace Nfa.Strict

def closeInitial : Edit Nfa Unit := do
  let a ← Edit.get
  let met ← Edit.ofExcept (a.epsilonClosure a.initial)
  let found ← Edit.ofExcept (Dfa.State.statesAt a met.found)
  Edit.set { a with initial := met.seen }
  Edit.report (found.map fun q => .initialThroughEpsilon q.name)
  Edit.emit (.initialClosed found.length)

theorem saturate_ready (rule : Rule) (a : Nfa) :
    (rule.worklist (.epsilon :: a.enteringSymbols)).valid a :=
  ⟨List.mem_cons_self, a.enteredOn_enteringSymbols.mono fun _ => List.mem_cons_of_mem _⟩

/-- Rules view the source of the transition at hand. -/
def saturate (rule : Rule) : Edit Nfa Unit := fun a =>
  ((rule.worklist (.epsilon :: a.enteringSymbols)).guarded
    fun t a => (a.state t.source).map fun _ => ()).run a.epsilonTransitions a (saturate_ready rule a)

def saturateReporting (rule : Rule) (event : Nat → Event) : Edit Nfa Unit := do
  let before := (← Edit.get).transitions.length
  saturate rule
  let after := (← Edit.get).transitions.length
  Edit.emit (event (after - before))

def inheritAcceptance : List Transition → Edit Nfa Nat
  | [] => return 0
  | t :: rest => do
    let a ← Edit.get
    let target ← Edit.ofExcept (a.state t.target)
    let source ← Edit.ofExcept (a.state t.source)
    if target.isAccepting && !source.isAccepting then
      let _ ← promote t.source
      Edit.emit (.acceptingThroughEpsilon source.name)
      return (← inheritAcceptance rest) + 1
    else
      inheritAcceptance rest

def promoteAccepting : Edit Nfa Unit := do
  let count ← inheritAcceptance (← Edit.get).epsilonTransitions
  Edit.emit (.promoted count)

/-- The last two passes look up what they view as it is. -/
def eliminateEpsilons : Edit Nfa Unit := do
  let a ← Edit.get
  Edit.emit (.eliminating a.epsilonTransitions.length a.size)
  closeInitial
  saturateReporting composition .epsilonClosed
  promoteAccepting
  saturateReporting shortcut .shortcutsAdded
  discardEpsilon
  verifyEpsilonFree

end Nfa.Strict

namespace Dfa.Strict

/-- A state is expanded by way of its members. -/
def expandAll (a : Nfa) (start : StateId) : Edit Dfa Unit := fun d =>
  ((expansion a).guarded fun i d => do
    let q ← d.state i
    let _ ← State.statesAt a q.members.toList
    return ()).run [start] d trivial

def construct (a : Nfa) : Edit Dfa Unit :=
  if a.isEpsilonFree then do
    let start ← intern a.initial a
    expandAll a start.1
    let d ← Edit.get
    Edit.emit (.determinized d.size d.transitions.length a.size)
  else Edit.fail (.hasEpsilon a.epsilonTransitions.length)

end Dfa.Strict

def Nfa.Strict.determinize (a : Nfa) : Outcome Dfa Unit := Dfa.Strict.construct a (Dfa.emptyFor a)

end FiniteAutomata
