import NounPhrase.CommandLine.Run

/-!
# The command

Reads the files or the standard input, and prints what `runCommand` gives.

## Main definitions

* `mainWith`: the command, given the parser of its arguments.
-/

namespace NounPhrase

/-- The contents of a file, if it can be read. -/
private def contents? (path : String) : IO (Option String) := do
  try
    return some (← IO.FS.readFile path)
  catch _ =>
    return none

/-- The command: reads its input, prints its output, and exits with its code. -/
def mainWith (parse : List String → Except Outcome Settings) (args : List String) : IO UInt32 := do
  let files := ((parse args).map Settings.files).toOption.getD []
  let contents ← files.mapM fun path => return (path, ← contents? path)
  let stdin ← if files.isEmpty then (← IO.getStdin).readToEnd else pure ""
  let outcome := runCommand parse args stdin fun path => (contents.lookup path).join
  IO.print outcome.stdout
  return outcome.exitCode.toUInt32

end NounPhrase
