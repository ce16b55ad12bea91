/-!
Whether a state accepts. An accepting state is shown in parentheses.
-/

namespace FiniteAutomata

inductive Kind where
  | ordinary
  | accepting
  deriving DecidableEq

namespace Kind

def ofAccepting (accepts : Bool) : Kind := if accepts then accepting else ordinary

def isAccepting : Kind → Bool
  | ordinary => false
  | accepting => true

def mark (kind : Kind) (name : String) : String :=
  match kind with
  | ordinary => name
  | accepting => "(" ++ name ++ ")"

instance : Ord Kind where
  compare k l := compare k.isAccepting l.isAccepting

end Kind
end FiniteAutomata
