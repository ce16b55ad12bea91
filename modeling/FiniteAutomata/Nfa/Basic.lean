import FiniteAutomata.Alphabet
import FiniteAutomata.Edit
import FiniteAutomata.Nfa.State

/-!
Nondeterministic automata with epsilon transitions. The transitions are listed in the order in
which they were added, and once more in the two indices of each state.
-/

namespace FiniteAutomata

structure Nfa where
  states : List Nfa.State := []
  alphabet : Alphabet := {}
  transitions : List Transition := []
  initial : StateSet := ∅
  deriving DecidableEq

namespace Nfa

def size (a : Nfa) : Nat := a.states.length

def state (a : Nfa) (q : StateId) : Except Error State :=
  match a.states[q]? with
  | some state => .ok state
  | none => .error (.outOfRange q)

def stateId? (a : Nfa) (name : String) : Option StateId := a.states.findIdx? (·.name = name)

def numbered (q : StateId) : String := "#" ++ toString q

/-- The name of a state, or its number if there is no such state. -/
def nameOf (a : Nfa) (q : StateId) : String :=
  match a.states[q]? with
  | some state => state.name
  | none => numbered q

def shownState (a : Nfa) (q : StateId) : String :=
  match a.states[q]? with
  | some state => state.shown
  | none => numbered q

def shown (a : Nfa) (t : Transition) : String :=
  a.shownState t.source ++ ", " ++ t.symbol.label ++ " --> " ++ a.shownState t.target

/-- Fails for a transition between states that do not exist. -/
def shown? (a : Nfa) (t : Transition) : Except Error String := do
  let _ ← a.state t.source
  let _ ← a.state t.target
  return a.shown t

/-! ### Views -/

def outboundOn (a : Nfa) (q : StateId) (x : Symbol) : List Transition :=
  match a.states[q]? with
  | some state => state.outbound.on x
  | none => []

def inboundOn (a : Nfa) (q : StateId) (x : Symbol) : List Transition :=
  match a.states[q]? with
  | some state => state.inbound.on x
  | none => []

def edgesFrom (a : Nfa) (q : StateId) : List Transition :=
  match a.states[q]? with
  | some state => state.outbound.edges
  | none => []

def edgesTo (a : Nfa) (q : StateId) : List Transition :=
  match a.states[q]? with
  | some state => state.inbound.edges
  | none => []

/-- Looks the transition up in the index of its source, which has to exist. -/
def hasTransition (a : Nfa) (t : Transition) : Except Error Bool := do
  return ((← a.state t.source).outbound.on t.symbol).any (·.target = t.target)

def isAccepting (a : Nfa) (q : StateId) : Bool :=
  match a.states[q]? with
  | some state => state.isAccepting
  | none => false

def acceptingStates (a : Nfa) : List State := a.states.filter State.isAccepting

def epsilonTransitions (a : Nfa) : List Transition := a.transitions.filter Transition.isEpsilon

def isEpsilonFree (a : Nfa) : Bool := a.transitions.all (!·.isEpsilon)

def sortedTransitions (a : Nfa) : List Transition := Transition.sorted a.nameOf a.transitions

/-! ### Edits -/

def addState (name : String) (kind : Kind) : Edit Nfa StateId := fun a =>
  if a.states.any (·.name = name) then ⟨a, [], .error (.duplicateState name)⟩
  else
    let state : State := { id := a.size, name := name, kind := kind }
    ⟨{ a with states := a.states ++ [state] }, [], .ok a.size⟩

/-- The flag tells whether the letter is new. -/
def addSymbol (x : Symbol) : Edit Nfa Bool := fun a =>
  match a.alphabet.insert x with
  | .ok (alphabet, fresh) => ⟨{ a with alphabet := alphabet }, [], .ok fresh⟩
  | .error e => ⟨a, [], .error e⟩

def requireState (q : StateId) : Edit Nfa Unit := fun a =>
  if q < a.size then ⟨a, [], .ok ()⟩ else ⟨a, [], .error (.unknownState (numbered q))⟩

/-- The flag tells whether the state was not initial before. -/
def addInitial (q : StateId) : Edit Nfa Bool := do
  requireState q
  let a ← Edit.get
  Edit.set { a with initial := a.initial.insert q }
  return q ∉ a.initial

/-- Changes one state. -/
def editState (q : StateId) (f : State → Except Error State) : Edit Nfa Unit := fun a =>
  match a.states[q]? with
  | none => ⟨a, [], .error (.outOfRange q)⟩
  | some state =>
    match f state with
    | .ok state => ⟨{ a with states := a.states.set q state }, [], .ok ()⟩
    | .error e => ⟨a, [], .error e⟩

/-- Letters that occur on transitions belong to the alphabet. -/
def learn (x : Symbol) : Edit Nfa Unit :=
  if x.isEpsilon then pure ()
  else do
    let _ ← addSymbol x
    return ()

def appendTransition (t : Transition) : Edit Nfa Unit := do
  Edit.modify fun a => { a with transitions := a.transitions ++ [t] }
  Edit.emit (.added ((← Edit.get).shown t))

/-- The flag tells whether the transition is new. -/
def addTransition (t : Transition) : Edit Nfa Bool := do
  requireState t.source
  requireState t.target
  if t ∈ (← Edit.get).transitions then
    return false
  else
    learn t.symbol
    editState t.source (·.addOutbound t)
    editState t.target (·.addInbound t)
    appendTransition t
    return true

def removeTransition (t : Transition) : Edit Nfa Unit := do
  let a ← Edit.get
  if t ∈ a.transitions then
    Edit.set { a with transitions := a.transitions.erase t }
    editState t.source (·.removeOutbound t)
    editState t.target (·.removeInbound t)
  else
    Edit.fail (.notRecorded (a.nameOf t.source) t.text)

/-- The flag tells whether the state was ordinary before. -/
def promote (q : StateId) : Edit Nfa Bool := do
  let before := (← Edit.get).isAccepting q
  editState q fun state => .ok state.promote.1
  return !before

end Nfa
end FiniteAutomata
