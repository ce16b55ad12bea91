import FiniteAutomata.CommandLine

open FiniteAutomata

def main (args : List String) : IO UInt32 := do
  let seed ← IO.rand 0 4294967295
  let exit := CommandLine.run args (.ofSeed seed)
  IO.print exit.output
  for line in exit.diagnostics do
    IO.eprintln line
  return exit.code.toUInt32
