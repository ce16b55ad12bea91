import FiniteAutomata.Edit
import FiniteAutomata.Nfa.State

/-!
Calls on a single state that change its indices where they are, one change after the other. A call
that fails is not taken back; it has to fail before it changes anything.
-/

namespace FiniteAutomata

namespace Adjacency

/-- Adds to the list for the symbol, which is entered first if there is none. -/
def attachInPlace (t : Transition) : Edit Adjacency Unit := do
  if ((← Edit.get).get? t.symbol).isNone then
    Edit.modify (·.insert t.symbol [])
  Edit.modify fun index => index.insert t.symbol (index.on t.symbol ++ [t])

/-- Takes the transition out of the list for its symbol, then drops the list if nothing is left in
it. The flag tells whether there was anything to take out. -/
def detachInPlace (t : Transition) : Edit Adjacency Bool := do
  match (← Edit.get).get? t.symbol with
  | none => return false
  | some ts =>
    match ts.idxOf? t with
    | none => return false
    | some i =>
      Edit.modify (·.insert t.symbol (ts.eraseIdx i))
      if ((← Edit.get).on t.symbol).isEmpty then
        Edit.modify (·.erase t.symbol)
      return true

end Adjacency

namespace Nfa.State

/-- Which of the two indices of a state. -/
inductive Side where
  | outbound
  | inbound
  deriving DecidableEq

namespace Side

variable {α : Type}

def index : Side → State → Adjacency
  | outbound, q => q.outbound
  | inbound, q => q.inbound

def put (index : Adjacency) : Side → State → State
  | outbound, q => { q with outbound := index }
  | inbound, q => { q with inbound := index }

/-- The end of a transition that has to be at the state. -/
def here : Side → Transition → StateId
  | outbound, t => t.source
  | inbound, t => t.target

def mismatch : Side → State → Transition → Error
  | outbound, q, t => .wrongSource q.name t.text
  | inbound, q, t => .wrongTarget q.name t.text

def edit (side : Side) (m : Edit Adjacency α) : Edit State α := fun q =>
  let done := m (side.index q)
  ⟨side.put done.final q, done.log, done.result⟩

def add (side : Side) (t : Transition) : Edit State Unit := do
  let q ← Edit.get
  if side.here t = q.id then side.edit (Adjacency.attachInPlace t)
  else Edit.fail (side.mismatch q t)

def remove (side : Side) (t : Transition) : Edit State Unit := do
  let q ← Edit.get
  if side.here t = q.id then
    let found ← side.edit (Adjacency.detachInPlace t)
    unless found do Edit.fail (.notRecorded q.name t.text)
  else Edit.fail (side.mismatch q t)

end Side

inductive Call where
  | add (side : Side) (t : Transition)
  | remove (side : Side) (t : Transition)
  | promote
  deriving DecidableEq

def Call.perform : Call → Edit State Unit
  | add side t => side.add t
  | remove side t => side.remove t
  | promote => Edit.modify (·.promote.1)

def Operation.call : Operation → Call
  | addOutbound t => .add .outbound t
  | addInbound t => .add .inbound t
  | removeOutbound t => .remove .outbound t
  | removeInbound t => .remove .inbound t
  | promote => .promote

/-- Goes on after calls that fail. -/
def run (q : State) (history : List Call) : State :=
  history.foldl (fun q call => (call.perform q).final) q

/-- The calls that succeed when all are made, one after the other. -/
def succeeding (q : State) : List Call → List Call
  | [] => []
  | call :: rest =>
    let done := call.perform q
    match done.result with
    | .ok _ => call :: succeeding done.final rest
    | .error _ => succeeding done.final rest

end Nfa.State
end FiniteAutomata
