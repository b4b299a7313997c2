/-
# The command line

Prints the output of a run and ends with its exit code.
-/

import BoundsSolver.CommandLine.Run

def main (words : List String) : IO UInt32 := do
  let output := BoundsSolver.Output.ofWords words
  output.lines.forM IO.println
  return output.exitCode.toUInt32
