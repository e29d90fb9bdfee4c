import QueryAudit.CommandLine

/-!
# QueryAudit.Main

The command as a program: it reads the files that its arguments name and writes
what `CommandLine.run` answers.
-/

namespace QueryAudit

/-- The content of a file, if it can be read. -/
def readFile? (path : String) : IO (Option ByteArray) := do
  try
    return some (← IO.FS.readBinFile path)
  catch _ =>
    return none

end QueryAudit

open QueryAudit in
/-- Run the command. -/
def main (args : List String) : IO UInt32 := do
  let contents ← args.mapM fun path => return (path, ← readFile? path)
  let files : CommandLine.Files := fun path => (contents.find? (·.1 == path)).bind (·.2)
  let outcome := CommandLine.run files args
  IO.print outcome.output
  IO.eprint outcome.errors
  return if outcome.success then 0 else 1
