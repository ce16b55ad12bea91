import FiniteAutomata.Nfa.Basic

/-!
Automata declared by name. States, letters, transitions and initial states are collected first
and entered in that order; a name has to be declared as a state before it is used.
-/

namespace FiniteAutomata

structure Declaration where
  states : List (String × Kind) := []
  letters : List Symbol := []
  transitions : List (String × Symbol × String) := []
  initial : List String := []

/-- What can be declared. -/
inductive Clause where
  | states (names : List String)
  | accepting (names : List String)
  | state (name : String) (kind : Kind)
  | alphabet (letters : List Symbol)
  | transitions (edges : List (String × Symbol × String))
  | epsilon (edges : List (String × String))
  | initial (names : List String)

namespace Declaration

def add (d : Declaration) : Clause → Declaration
  | .states names => { d with states := d.states ++ names.map (·, .ordinary) }
  | .accepting names => { d with states := d.states ++ names.map (·, .accepting) }
  | .state name kind => { d with states := d.states ++ [(name, kind)] }
  | .alphabet letters => { d with letters := d.letters ++ letters }
  | .transitions edges => { d with transitions := d.transitions ++ edges }
  | .epsilon edges =>
    { d with transitions := d.transitions ++ edges.map fun (p, q) => (p, .epsilon, q) }
  | .initial names => { d with initial := d.initial ++ names }

def ofClauses (clauses : List Clause) : Declaration := clauses.foldl add {}

end Declaration

namespace Nfa

def resolve (name : String) : Edit Nfa StateId := do
  match (← Edit.get).stateId? name with
  | some q => pure q
  | none => Edit.fail (.unknownState name)

def addStates : List (String × Kind) → Edit Nfa Unit
  | [] => pure ()
  | (name, kind) :: rest => do
    let _ ← addState name kind
    addStates rest

def addSymbols : List Symbol → Edit Nfa Unit
  | [] => pure ()
  | x :: rest => do
    let _ ← addSymbol x
    addSymbols rest

def addNamed : List (String × Symbol × String) → Edit Nfa Unit
  | [] => pure ()
  | (source, x, target) :: rest => do
    let p ← resolve source
    let q ← resolve target
    let _ ← addTransition ⟨p, x, q⟩
    addNamed rest

def addInitialNamed : List String → Edit Nfa Unit
  | [] => pure ()
  | name :: rest => do
    let q ← resolve name
    let _ ← addInitial q
    addInitialNamed rest

def declare (d : Declaration) : Edit Nfa Unit := do
  addStates d.states
  addSymbols d.letters
  addNamed d.transitions
  addInitialNamed d.initial

end Nfa

def Declaration.build (d : Declaration) : Except Error Nfa :=
  let built := Nfa.declare d {}
  built.result.map fun _ => built.final

end FiniteAutomata
