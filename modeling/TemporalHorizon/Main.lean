import TemporalHorizon.Demo.Run

/-!
# The command line

Prints the lines of a run of the demonstration and exits with its code.
-/

open TemporalHorizon in
/-- Run the demonstration with the arguments of the command line. -/
def main (args : List String) : IO UInt32 := do
  let outcome := Demo.run args
  outcome.lines.forM IO.println
  return outcome.exitCode.toUInt32
