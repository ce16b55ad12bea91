import FiniteAutomata.Nfa.Basic

/-!
States of a deterministic automaton. Each stands for a set of states of a nondeterministic one,
its members: they give it its name, and it accepts if one of them does.
-/

namespace FiniteAutomata

structure Dfa.State where
  id : StateId
  members : StateSet
  name : String
  kind : Kind
  outbound : SymbolMap Transition := ∅
  inbound : Adjacency := ∅
  deriving DecidableEq

namespace Dfa.State

/-- The names of the members, sorted. -/
def nameOfMembers (names : List String) : String :=
  "\x7b" ++ ",".intercalate (names.mergeSort (· ≤ ·)) ++ "\x7d"

/-- Looks up states by number; fails if one does not exist. -/
def statesAt (a : Nfa) : List StateId → Except Error (List Nfa.State)
  | [] => .ok []
  | q :: rest => do return (← a.state q) :: (← statesAt a rest)

/-- Fails if a member is not a state of the automaton. -/
def ofMembers (id : StateId) (members : StateSet) (a : Nfa) : Except Error State := do
  let states ← statesAt a members.toList
  return {
    id, members
    name := nameOfMembers (states.map Nfa.State.name)
    kind := .ofAccepting (states.any Nfa.State.isAccepting) }

def isAccepting (q : State) : Bool := q.kind.isAccepting

def shown (q : State) : String := q.kind.mark q.name

/-- States count as the same by their members. -/
def same (q r : State) : Bool := q.members = r.members

def successor (q : State) (x : Symbol) : Option StateId := (q.outbound.get? x).map (·.target)

def successors (q : State) : List StateId := q.outbound.values.map Transition.target

def addOutbound (t : Transition) (q : State) : Except Error State :=
  if t.source = q.id then
    if (q.outbound.get? t.symbol).isSome then
      .error (.secondSuccessor q.name t.symbol t.text)
    else .ok { q with outbound := q.outbound.insert t.symbol t }
  else .error (.wrongSource q.name t.text)

def addInbound (t : Transition) (q : State) : Except Error State :=
  if t.target = q.id then .ok { q with inbound := q.inbound.attach t }
  else .error (.wrongTarget q.name t.text)

end Dfa.State
end FiniteAutomata
