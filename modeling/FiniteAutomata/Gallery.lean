import FiniteAutomata.Nfa.Declaration

/-!
A few automata with epsilon transitions, numbered from one.
-/

namespace FiniteAutomata.Gallery

/-- Two branches that meet again, then epsilon transitions to the accepting state. -/
def branches : Declaration := .ofClauses [
  .states ["q0", "q1", "q2"], .accepting ["q3"], .states ["q4", "q5"],
  .alphabet [.letter "x", .letter "y"],
  .transitions [
    ("q0", .letter "x", "q1"), ("q1", .letter "x", "q2"), ("q1", .letter "x", "q5"),
    ("q5", .letter "y", "q2"), ("q1", .letter "y", "q4")],
  .epsilon [("q2", "q3"), ("q4", "q2")],
  .initial ["q0"]]

/-- An initial state with loops, and epsilon transitions to the accepting state. -/
def loops : Declaration := .ofClauses [
  .states ["q0", "q1"], .accepting ["q2"],
  .alphabet [.letter "x", .letter "y"],
  .transitions [
    ("q0", .letter "x", "q0"), ("q0", .letter "y", "q0"), ("q0", .letter "x", "q1"),
    ("q1", .letter "y", "q2"), ("q1", .letter "y", "q0")],
  .epsilon [("q0", "q2"), ("q1", "q2")],
  .initial ["q0"]]

/-- A chain of epsilon transitions beside a path of letters. -/
def fan : Declaration := .ofClauses [
  .states ["q0", "q1", "q2", "q3", "q4"], .accepting ["q5", "q6"],
  .alphabet [.letter "a", .letter "b"],
  .transitions [("q3", .letter "a", "q4"), ("q4", .letter "b", "q5")],
  .epsilon [("q0", "q1"), ("q1", "q2"), ("q2", "q5"), ("q0", "q3"), ("q4", "q6")],
  .initial ["q0"]]

/-- Cycles through letters and epsilon. -/
def cycles : Declaration := .ofClauses [
  .states ["q0", "q1", "q2"], .accepting ["q3"],
  .alphabet [.letter "x", .letter "y"],
  .transitions [
    ("q0", .letter "x", "q1"), ("q0", .letter "y", "q2"), ("q1", .letter "y", "q3"),
    ("q2", .letter "x", "q0"), ("q2", .letter "x", "q3"), ("q2", .letter "y", "q1"),
    ("q3", .letter "x", "q0")],
  .epsilon [("q0", "q3"), ("q1", "q2"), ("q2", "q3")],
  .initial ["q0"]]

/-- Two paths that join before the accepting state. -/
def diamond : Declaration := .ofClauses [
  .states ["q0", "q1", "q2", "q3", "q4"], .accepting ["q5"],
  .alphabet [.letter "a", .letter "c", .letter "d"],
  .transitions [
    ("q0", .letter "a", "q1"), ("q1", .letter "c", "q1"), ("q1", .letter "d", "q2"),
    ("q1", .letter "c", "q4"), ("q2", .letter "c", "q3"), ("q3", .letter "c", "q3"),
    ("q4", .letter "d", "q3")],
  .epsilon [("q0", "q1"), ("q3", "q5")],
  .initial ["q0"]]

def all : List Declaration := [branches, loops, fan, cycles, diamond]

def get (number : Nat) : Except Error Nfa :=
  match number, all[number - 1]? with
  | 0, _ | _, none => .error (.noSuchFixture number)
  | _, some d => d.build

end FiniteAutomata.Gallery
