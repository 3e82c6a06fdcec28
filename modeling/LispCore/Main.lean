import LispCore.Command

/-!
# The program

Reads the arguments and the files they name, and prints the answer. The exit code is 0 for
an answer, 1 for a failure, which is told on standard error, and 2 for arguments that spell
no command.
-/

namespace LispCore

/-- How the program is used. -/
def usage : String :=
  "usage: [--config FILE] [--no-elide] (run FILE [--mode MODE] | disasm FILE | check FILE)"

/-- The text of a file, if it can be read. -/
def readText? (path : String) : IO (Option String) := do
  try
    return some (← IO.FS.readFile path)
  catch _ =>
    return none

/-- Runs a command line. -/
def runCommand (args : List String) : IO UInt32 := do
  match Command.parse? args with
  | none =>
    IO.eprintln usage
    return 2
  | some c =>
    let files ← c.paths.mapM fun path => return (path, ← readText? path)
    match c.respond fun path => (files.lookup path).join with
    | .ok text =>
      IO.print text
      return 0
    | .error message =>
      IO.eprintln ("Error: " ++ message)
      return 1

end LispCore

/-- The entry point. -/
def main (args : List String) : IO UInt32 :=
  LispCore.runCommand args
