import FiniteAutomata.Chance
import FiniteAutomata.Dfa.Determinize
import FiniteAutomata.Gallery
import FiniteAutomata.Nfa.Elimination
import FiniteAutomata.Text.Listing
import FiniteAutomata.Text.Table

/-!
The command line: takes an automaton from the gallery or draws one, eliminates its epsilon
transitions, determinizes the result, and prints what it has after each step.
-/

namespace FiniteAutomata.CommandLine

inductive Switch where
  | fixture
  | random
  | symbols
  | table
  | skipDeterminize
  | verbose
  | help
  deriving DecidableEq

namespace Switch

def ofShort : Char → Option Switch
  | 'f' => some fixture
  | 'r' => some random
  | 's' => some symbols
  | 't' => some table
  | 'v' => some verbose
  | 'h' => some help
  | _ => none

def long : Switch → String
  | fixture => "fixture"
  | random => "random"
  | symbols => "symbols"
  | table => "table"
  | skipDeterminize => "skip-determinize"
  | verbose => "verbose"
  | help => "help"

def all : List Switch := [fixture, random, symbols, table, skipDeterminize, verbose, help]

/-- Long names are not abbreviated. -/
def ofLong (name : String) : Option Switch := all.find? (·.long = name)

def takesValue : Switch → Bool
  | fixture | random | symbols => true
  | table | skipDeterminize | verbose | help => false

end Switch

/-- What was asked for, as far as it was. -/
structure Settings where
  fixture : Option Nat := none
  random : Option Nat := none
  symbols : Option Nat := none
  table : Bool := false
  skipDeterminize : Bool := false
  verbosity : Nat := 0
  deriving DecidableEq

inductive Misuse where
  | unexpected (argument : String)
  | missingValue (switch : Switch)
  | invalidValue (switch : Switch) (value : String)
  | repeated (switch : Switch)
  deriving DecidableEq

inductive Request where
  | process (settings : Settings)
  | help
  deriving DecidableEq

def digits (cs : List Char) : Option Nat :=
  if cs = [] ∨ !cs.all Char.isDigit then none
  else some (cs.foldl (fun n c => 10 * n + (c.toNat - '0'.toNat)) 0)

/-- A plus sign may stand before the digits. -/
def number (value : String) : Option Nat :=
  match value.toList with
  | '+' :: rest => digits rest
  | cs => digits cs

def numberWithin (low high : Nat) (value : String) : Option Nat :=
  (number value).filter fun n => low ≤ n ∧ n ≤ high

/-- Counts are machine words. -/
def maxCount : Nat := 18446744073709551615

namespace Settings

/-- All switches but the one for verbosity are given once at most. -/
def isGiven (s : Settings) : Switch → Bool
  | .fixture => s.fixture.isSome
  | .random => s.random.isSome
  | .symbols => s.symbols.isSome
  | .table => s.table
  | .skipDeterminize => s.skipDeterminize
  | .verbose | .help => false

def turnOn (s : Settings) (switch : Switch) : Except Misuse Settings :=
  if s.isGiven switch then .error (.repeated switch)
  else .ok (match switch with
    | .table => { s with table := true }
    | .skipDeterminize => { s with skipDeterminize := true }
    | .verbose => { s with verbosity := s.verbosity + 1 }
    | _ => s)

def assign (s : Settings) (switch : Switch) (value : String) : Except Misuse Settings :=
  if s.isGiven switch then .error (.repeated switch)
  else
    let updated := match switch with
      | .fixture =>
        (numberWithin 1 Gallery.all.length value).map fun n => { s with fixture := some n }
      | .random => (numberWithin 0 maxCount value).map fun n => { s with random := some n }
      | .symbols =>
        (numberWithin 1 Chance.maxLetters value).map fun n => { s with symbols := some n }
      | _ => none
    match updated with
    | some t => .ok t
    | none => .error (.invalidValue switch value)

end Settings

/-- Where the reading of one argument leads. -/
inductive Progress where
  | settled (settings : Settings)
  /-- The value is the next argument. -/
  | awaiting (switch : Switch) (settings : Settings)
  | helping

/-- Reads the letters after a single dash; what follows a switch with a value is its value. -/
def readShort (s : Settings) : List Char → Except Misuse Progress
  | [] => .ok (.settled s)
  | c :: rest =>
    match Switch.ofShort c with
    | none => .error (.unexpected ("-" ++ String.singleton c))
    | some .help => .ok .helping
    | some switch =>
      if switch.takesValue then
        match rest with
        | [] => if s.isGiven switch then .error (.repeated switch) else .ok (.awaiting switch s)
        | '=' :: value => .settled <$> s.assign switch (String.ofList value)
        | value => .settled <$> s.assign switch (String.ofList value)
      else do readShort (← s.turnOn switch) rest

/-- Reads what stands after two dashes. -/
def readLong (s : Settings) (text : List Char) : Except Misuse Progress :=
  let name := String.ofList (text.takeWhile (· ≠ '='))
  let value := match text.dropWhile (· ≠ '=') with
    | [] => none
    | _ :: value => some (String.ofList value)
  match Switch.ofLong name, value with
  | none, _ => .error (.unexpected ("--" ++ name))
  | some .help, none => .ok .helping
  | some switch, none =>
    if !switch.takesValue then .settled <$> s.turnOn switch
    else if s.isGiven switch then .error (.repeated switch)
    else .ok (.awaiting switch s)
  | some switch, some value =>
    if switch.takesValue then .settled <$> s.assign switch value
    else .error (.unexpected value)

/-- The first misuse counts. -/
def read (s : Settings) : List String → Except Misuse Request
  | [] => .ok (.process s)
  | arg :: rest =>
    match arg.toList with
    | ['-', '-'] =>
      match rest with
      | [] => .ok (.process s)
      | extra :: _ => .error (.unexpected extra)
    | '-' :: c :: cs => do
      match ← (if c = '-' then readLong s cs else readShort s (c :: cs)) with
      | .settled s => read s rest
      | .helping => return .help
      | .awaiting switch s =>
        match rest with
        | [] => .error (.missingValue switch)
        | value :: rest =>
          match value.toList with
          | '-' :: _ :: _ => .error (.missingValue switch)
          | _ => read (← s.assign switch value) rest
    | _ => .error (.unexpected arg)

/-! ### The report -/

def defaultFixture : Nat := 5

def defaultSymbols : Nat := 2

def density : Density := .finite (3 / 10)

def epsilonDensity : Density := .finite (15 / 100)

/-- A title, a listing, the table if one is wanted, and a blank line. -/
def part (title listing : String) (table : Option String) : String :=
  title ++ "\n" ++ listing ++ (table.map (· ++ "\n")).getD "" ++ "\n"

/-- What is printed, and the events on the way. -/
structure Report where
  text : String
  log : List Event

namespace Settings

def input (s : Settings) (chance : Chance) : Outcome Nfa Unit :=
  match s.random with
  | some states => chance.draw states (s.symbols.getD defaultSymbols) density epsilonDensity
  | none =>
    match Gallery.get (s.fixture.getD defaultFixture) with
    | .ok a => ⟨a, [], .ok ()⟩
    | .error e => ⟨{}, [], .error e⟩

def partOfNfa (s : Settings) (title : String) (a : Nfa) : Except Error String := do
  if s.table then return part title a.listing (some (← a.table).draw)
  else return part title a.listing none

def partOfDfa (s : Settings) (title : String) (d : Dfa) : String :=
  part title d.listing (if s.table then some d.table.draw else none)

def report (s : Settings) (chance : Chance) : Except Error Report := do
  let input := s.input chance
  let _ ← input.result
  let first ← s.partOfNfa "input" input.final
  let eliminated := Nfa.eliminateEpsilons input.final
  let _ ← eliminated.result
  let second ← s.partOfNfa "without epsilon transitions" eliminated.final
  let log := input.log ++ eliminated.log ++ [.eliminated eliminated.final.transitions.length]
  if s.skipDeterminize then
    return { text := first ++ second, log }
  else
    let determinized := eliminated.final.determinize
    let _ ← determinized.result
    return {
      text := first ++ second ++ s.partOfDfa "determinized" determinized.final
      log := log ++ determinized.log ++ [.finished determinized.final.size] }

/-- How often verbosity has to be asked for before an event is shown. -/
def shows (s : Settings) (e : Event) : Bool :=
  match e.level with
  | .info => 1 ≤ s.verbosity
  | .debug => 2 ≤ s.verbosity
  | .trace => 3 ≤ s.verbosity

end Settings

def Misuse.message : Misuse → String
  | unexpected argument => "unexpected argument: " ++ argument
  | missingValue switch => "a value is required for --" ++ switch.long
  | invalidValue switch value => "invalid value for --" ++ switch.long ++ ": " ++ value
  | repeated switch => "--" ++ switch.long ++ " cannot be used more than once"

def usage : String :=
  "Eliminates the epsilon transitions of an example automaton and determinizes the result.\n" ++
  "\n" ++
  "Options:\n" ++
  "  -f, --fixture <FIXTURE>   Which of the example automata to process [default: 5]\n" ++
  "  -r, --random <RANDOM>     Process a random automaton with this many states\n" ++
  "  -s, --symbols <SYMBOLS>   Number of letters of the random automaton [default: 2]\n" ++
  "  -t, --table               Print transition tables in addition to the listings\n" ++
  "      --skip-determinize    Stop after epsilon elimination\n" ++
  "  -v, --verbose...          Increase the log level\n" ++
  "  -h, --help                Print help\n"

/-- Exit code, standard output, and the lines for standard error. -/
structure Exit where
  code : Nat
  output : String
  diagnostics : List String

def run (args : List String) (chance : Chance) : Exit :=
  match read {} args with
  | .error misuse => ⟨2, "", [misuse.message, usage]⟩
  | .ok .help => ⟨0, usage, []⟩
  | .ok (.process settings) =>
    match settings.report chance with
    | .ok report =>
      ⟨0, report.text,
        (report.log.filter settings.shows).map fun e => e.level.name ++ " " ++ e.text⟩
    | .error e => ⟨1, "", [e.message]⟩

end FiniteAutomata.CommandLine
