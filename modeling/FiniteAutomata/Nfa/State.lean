import FiniteAutomata.Error
import FiniteAutomata.Kind
import FiniteAutomata.Transition

/-!
States of a nondeterministic automaton. Each keeps two indices of the transitions that touch it:
those that leave it and those that enter it.
-/

namespace FiniteAutomata

structure Nfa.State where
  id : StateId
  name : String
  kind : Kind := .ordinary
  outbound : Adjacency := ∅
  inbound : Adjacency := ∅
  deriving DecidableEq

namespace Nfa.State

def isAccepting (q : State) : Bool := q.kind.isAccepting

def shown (q : State) : String := q.kind.mark q.name

/-- States count as the same by name and kind; their transitions do not matter. -/
def same (q r : State) : Bool := q.name = r.name ∧ q.kind = r.kind

/-- The flag tells whether the state was ordinary before. -/
def promote (q : State) : State × Bool := ({ q with kind := .accepting }, !q.isAccepting)

def addOutbound (t : Transition) (q : State) : Except Error State :=
  if t.source = q.id then .ok { q with outbound := q.outbound.attach t }
  else .error (.wrongSource q.name t.text)

def addInbound (t : Transition) (q : State) : Except Error State :=
  if t.target = q.id then .ok { q with inbound := q.inbound.attach t }
  else .error (.wrongTarget q.name t.text)

def removeOutbound (t : Transition) (q : State) : Except Error State :=
  if t.source = q.id then
    match q.outbound.detach t with
    | some index => .ok { q with outbound := index }
    | none => .error (.notRecorded q.name t.text)
  else .error (.wrongSource q.name t.text)

def removeInbound (t : Transition) (q : State) : Except Error State :=
  if t.target = q.id then
    match q.inbound.detach t with
    | some index => .ok { q with inbound := index }
    | none => .error (.notRecorded q.name t.text)
  else .error (.wrongTarget q.name t.text)

/-- One call on a single state. -/
inductive Operation where
  | addOutbound (t : Transition)
  | addInbound (t : Transition)
  | removeOutbound (t : Transition)
  | removeInbound (t : Transition)
  | promote

def perform (q : State) : Operation → Except Error State
  | .addOutbound t => q.addOutbound t
  | .addInbound t => q.addInbound t
  | .removeOutbound t => q.removeOutbound t
  | .removeInbound t => q.removeInbound t
  | .promote => .ok q.promote.1

end Nfa.State
end FiniteAutomata
