import Pipework.Trace

/-! The command line: prints the report on the definition that the arguments give. -/

open Pipework

def main (arguments : List String) : IO UInt32 := do
  let outcome := Trace.run arguments
  IO.print outcome.out
  IO.eprint outcome.err
  return outcome.status.toUInt32
