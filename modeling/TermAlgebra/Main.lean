import TermAlgebra.Program.Help
import TermAlgebra.Program.Run
import TermAlgebra.Program.Source

/-!
# The program

Reads the sources, runs their commands and prints what they answer. The exit code is 0 on success,
1 on a failure, 2 if the command line is wrong and 101 if something to be printed has no text.
-/

open TermAlgebra.Program

/-- The text of standard input or a file; nothing if it cannot be read. -/
def readSource (file : String) : IO (Option String) :=
  try
    if isStandardInput file then return some (← (← IO.getStdin).readToEnd)
    else return some (← IO.FS.readFile file)
  catch _ => return none

def printLines (lines : List String) : IO Unit := lines.forM IO.println

def main (args : List String) : IO UInt32 := do
  match Options.read args with
  | .error .usage =>
    IO.eprintln "usage: [OPTIONS] <FILE>..."
    return 2
  | .error (.help full) =>
    printLines (helpLines full)
    return 0
  | .error .version =>
    IO.println versionText
    return 0
  | .ok options =>
    let sources ← options.files.mapM readSource
    let outcome := run options sources
    printLines outcome.lines
    match outcome.result with
    | .ok () => return 0
    | .error e =>
      match e.message with
      | some message =>
        IO.eprintln message
        return 1
      | none => return 101
