import FiniteAutomata.Dfa.Basic
import FiniteAutomata.Graph

/-!
Acceptance by following successors from the initial state, and the states that can be reached.
-/

namespace FiniteAutomata.Dfa

def follow (d : Dfa) (q : StateId) : Word → Option StateId
  | [] => some q
  | x :: rest =>
    match d.successor q x with
    | some next => d.follow next rest
    | none => none

/-- A missing successor rejects. -/
def accepts (d : Dfa) (w : Word) : Bool :=
  match d.initial with
  | none => false
  | some q => ((d.follow q.id w).map d.isAccepting).getD false

def graph (d : Dfa) : Graph := d.states.map State.successors

/-- The states that can be reached from the initial one, if there is one. -/
def reachable (d : Dfa) : Except Error StateSet :=
  match d.initial with
  | none => .ok ∅
  | some q => (d.graph.explore (.ofList [q.id])).map Search.seen

end FiniteAutomata.Dfa
