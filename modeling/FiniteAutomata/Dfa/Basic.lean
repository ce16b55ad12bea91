import FiniteAutomata.Dfa.State

/-!
Deterministic automata, built state by state and edge by edge over the states of a
nondeterministic one. The first state is the initial one; no two states have the same members,
and no state has two successors on one symbol.
-/

namespace FiniteAutomata

structure Dfa where
  states : List Dfa.State := []
  alphabet : Alphabet := {}
  transitions : List Transition := []
  deriving DecidableEq

namespace Dfa

/-- No states yet. -/
def emptyFor (a : Nfa) : Dfa := { alphabet := a.alphabet }

def size (d : Dfa) : Nat := d.states.length

def state (d : Dfa) (q : StateId) : Except Error State :=
  match d.states[q]? with
  | some state => .ok state
  | none => .error (.outOfRange q)

def initial (d : Dfa) : Option State := d.states.head?

/-- A look at all states. An index leads there faster, see `Indexed.find`. -/
def find? (d : Dfa) (members : StateSet) : Option State :=
  d.states.find? (·.members = members)

def members (d : Dfa) (q : StateId) : StateSet :=
  match d.states[q]? with
  | some state => state.members
  | none => ∅

def successor (d : Dfa) (q : StateId) (x : Symbol) : Option StateId :=
  match d.states[q]? with
  | some state => state.successor x
  | none => none

def isAccepting (d : Dfa) (q : StateId) : Bool :=
  match d.states[q]? with
  | some state => state.isAccepting
  | none => false

def nameOf (d : Dfa) (q : StateId) : String :=
  match d.states[q]? with
  | some state => state.name
  | none => Nfa.numbered q

def shownState (d : Dfa) (q : StateId) : String :=
  match d.states[q]? with
  | some state => state.shown
  | none => Nfa.numbered q

def shown (d : Dfa) (t : Transition) : String :=
  d.shownState t.source ++ ", " ++ t.symbol.label ++ " --> " ++ d.shownState t.target

/-- Fails for a transition between states that do not exist. -/
def shown? (d : Dfa) (t : Transition) : Except Error String := do
  let _ ← d.state t.source
  let _ ← d.state t.target
  return d.shown t

def sortedTransitions (d : Dfa) : List Transition := Transition.sorted d.nameOf d.transitions

def isDeterministic (d : Dfa) : Bool :=
  decide (d.transitions.map fun t => (t.source, t.symbol)).Nodup

/-- The state with the given members; the flag tells whether it is new. -/
def intern (members : StateSet) (a : Nfa) : Edit Dfa (StateId × Bool) := fun d =>
  match d.find? members with
  | some state => ⟨d, [], .ok (state.id, false)⟩
  | none =>
    match State.ofMembers d.size members a with
    | .ok state => ⟨{ d with states := d.states ++ [state] }, [], .ok (d.size, true)⟩
    | .error e => ⟨d, [], .error e⟩

/-- Changes one state. -/
def editState (q : StateId) (f : State → Except Error State) : Edit Dfa Unit := fun d =>
  match d.states[q]? with
  | none => ⟨d, [], .error (.outOfRange q)⟩
  | some state =>
    match f state with
    | .ok state => ⟨{ d with states := d.states.set q state }, [], .ok ()⟩
    | .error e => ⟨d, [], .error e⟩

/-- The flag tells whether the transition is new. -/
def addTransition (t : Transition) : Edit Dfa Bool := do
  if t ∈ (← Edit.get).transitions then
    return false
  else
    editState t.source (·.addOutbound t)
    editState t.target (·.addInbound t)
    Edit.modify fun d => { d with transitions := d.transitions ++ [t] }
    return true

end Dfa
end FiniteAutomata
