import JassDecl.Step

/-!
# The program

Runs with the arguments of the command line, on the files of the machine.
-/

namespace JassDecl

instance : System IO where
  read? path := do
    try
      return some (← IO.FS.readBinFile (String.ofList path)).toList
    catch _ =>
      return none
  write? path content := do
    try
      IO.FS.writeBinFile (String.ofList path) (ByteArray.mk content.toArray)
      return true
    catch _ =>
      return false

end JassDecl

open JassDecl in
/-- Runs with the arguments of the command line. -/
def main (args : List String) : IO UInt32 := do
  let outcome ← (program (args.map String.toList) : IO Outcome)
  IO.print (String.ofList outcome.report.stdout)
  IO.eprint (String.ofList outcome.report.stderr)
  if let some escape := outcome.escape then
    throw (IO.userError (String.ofList escape.message))
  return outcome.report.exit.toUInt32
