import FiniteAutomata.Dfa.Basic
import FiniteAutomata.Text.Width

/-!
Transition tables: a row for each state and a column for each symbol. The first part says what the
cells hold, the second draws them in a frame with rounded corners.
-/

namespace FiniteAutomata

namespace Text

structure Cell where
  text : String
  /-- Shown bold and green. -/
  highlighted : Bool := false
  deriving DecidableEq

structure Table where
  header : List Cell
  rows : List (List Cell)
  deriving DecidableEq

def noTransition : String := "-"

def stateCell (shown : String) (initial accepting : Bool) : Cell :=
  { text := if initial then "→ " ++ shown else shown, highlighted := accepting }

def header (columns : List Symbol) : List Cell :=
  { text := "State" } :: columns.map fun x => { text := x.label }

end Text

namespace Nfa
open Text

def columns (a : Nfa) : List Symbol :=
  if a.isEpsilonFree then a.alphabet.letters else .epsilon :: a.alphabet.letters

/-- The names of the targets, sorted. A state with an empty name is not seen on its own. -/
def targetsCell (names : List String) : Cell :=
  let joined := ", ".intercalate (names.mergeSort (· ≤ ·))
  { text := if joined = "" then noTransition else "\x7b" ++ joined ++ "\x7d" }

def targetNames (a : Nfa) (q : State) (x : Symbol) : Except Error (List String) :=
  (q.outbound.on x).mapM fun t => State.name <$> a.state t.target

def row (a : Nfa) (q : State) : Except Error (List Cell) := do
  let cells ← a.columns.mapM fun x => targetsCell <$> a.targetNames q x
  return stateCell q.shown (q.id ∈ a.initial) q.isAccepting :: cells

/-- Fails if a transition leads to a state that does not exist. -/
def table (a : Nfa) : Except Error Table := do
  return { header := header a.columns, rows := ← a.states.mapM a.row }

end Nfa

namespace Dfa
open Text

def successorCell (d : Dfa) (q : State) (x : Symbol) : Cell :=
  { text := ((q.successor x).map d.nameOf).getD noTransition }

def row (d : Dfa) (q : State) : List Cell :=
  stateCell q.shown (q.id == 0) q.isAccepting :: d.alphabet.letters.map (d.successorCell q)

def table (d : Dfa) : Table :=
  { header := header d.alphabet.letters, rows := d.states.map d.row }

end Dfa

namespace Text

def splitLines (text : String) : List String := text.splitOn "\n"

def spaces (n : Nat) : String := String.ofList (List.replicate n ' ')

def largest (l : List Nat) : Nat := l.foldl max 0

namespace Cell

def lines (c : Cell) : List String := splitLines c.text

def width (c : Cell) : Nat := largest (c.lines.map Text.width)

/-- A line of a cell, filled up to the width of its column; lines beyond the last are blank. -/
def line (c : Cell) (columnWidth index : Nat) : String :=
  match c.lines[index]? with
  | none => spaces columnWidth
  | some text =>
    let shown := if c.highlighted then "\x1b[32m\x1b[1m" ++ text ++ "\x1b[0m\x1b[39m" else text
    shown ++ spaces (columnWidth - Text.width text)

end Cell

def rule (left dash middle right : String) (widths : List Nat) : String :=
  left ++ middle.intercalate
    (widths.map fun n => String.join (List.replicate (n + 2) dash)) ++ right

/-- A row is as high as its highest cell. -/
def drawRow (widths : List Nat) (row : List Cell) : List String :=
  (List.range (largest (row.map fun c => c.lines.length))).map fun i =>
    "│" ++ "│".intercalate ((row.zip widths).map fun (c, n) => " " ++ c.line n i ++ " ") ++ "│"

namespace Table

def widths (t : Table) : List Nat :=
  (List.range t.header.length).map fun i =>
    largest ((t.header :: t.rows).map fun row => ((row[i]?).map Cell.width).getD 0)

/-- A table without rows is left open at the bottom. -/
def draw (t : Table) : String :=
  let widths := t.widths
  let bottom := if t.rows = [] then [] else [rule "╰" "─" "┴" "╯" widths]
  "\n".intercalate <|
    [rule "╭" "─" "┬" "╮" widths] ++ drawRow widths t.header ++
    [rule "├" "─" "┼" "┤" widths] ++ t.rows.flatMap (drawRow widths) ++ bottom

end Table
end Text
end FiniteAutomata
