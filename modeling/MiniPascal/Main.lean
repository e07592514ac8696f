/-
# The program

Reads the arguments, serves them and writes the answer.
-/
import MiniPascal.CommandLine

set_option autoImplicit false

/-- The bytes of a file, if it can be read. -/
def MiniPascal.readFileBytes? (path : String) : IO (Option ByteArray) := do
  try
    return some (← IO.FS.readBinFile path)
  catch _ =>
    return none

/-- Serve the arguments of the command line. -/
def main (arguments : List String) : IO UInt32 := do
  let answer ← MiniPascal.CommandLine.serve MiniPascal.readFileBytes? arguments
  IO.eprint answer.errors
  IO.print answer.output
  return answer.code
