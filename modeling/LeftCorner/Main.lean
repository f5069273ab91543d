import LeftCorner.CommandLine

/-!
# The program

Prints the report on its arguments and exits with the report's code.
-/

def main (arguments : List String) : IO UInt32 := do
  let report := LeftCorner.CommandLine.run arguments
  IO.print report.output
  IO.eprint report.complaint
  return report.code.toUInt32
