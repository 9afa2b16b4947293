import EngineHeader.CommandLine

/-!
# The program

The outer layer: it reads the files and the standard input, runs the command line
and writes what comes of it.
-/

open EngineHeader.CommandLine

/-- The text of a file, if it can be read. -/
def readText? (name : String) : IO (Option String) := do
  try return some (← IO.FS.readFile name)
  catch _ => return none

/-- The texts of files, with their names. -/
def readTexts (names : List String) : IO (List (String × Option String)) :=
  names.mapM fun name => return (name, ← readText? name)

/-- Run the program. -/
def main (arguments : List String) : IO UInt32 := do
  let options? := Options.ofArguments arguments
  let texts ← readTexts ((options?.map Options.files).getD [])
  let usesInput := (options?.map (·.headerFile?.isNone)).getD false
  let input ← if usesInput then (← IO.getStdin).readToEnd else pure ""
  let outcome := run arguments (fun name => (texts.lookup name).join) input
  match outcome with
  | .success output => IO.print output
  | .failure message => IO.eprintln message
  | .misuse => IO.eprintln "usage: [--config FILE] [--dialect NAME] [--cplusplus] [-D NAME] [HEADER]"
  return outcome.exitCode.toUInt32
