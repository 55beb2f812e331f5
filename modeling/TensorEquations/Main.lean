import TensorEquations.CommandLine.Run

/-!
# The program

Reads the file that a command line asks for, prints what its run comes to and writes the results.
-/

namespace TensorEquations

open CommandLine

/-- How the program is used. -/
def usageText : String :=
  "usage: solve EQUATIONS [--dimension N] [--out FILE] [--timeout SECONDS] [--log-level LEVEL]\n"

/-- The contents of a file. -/
def readContents (path : String) : IO Contents := do
  try
    return .text (← IO.FS.readFile path)
  catch
    | .noFileOrDirectory .. => return .missing
    | _ => return .unreadable

/-- Prints an outcome and writes its output; the result is the exit status. -/
def finish (outcome : Outcome) : IO UInt32 := do
  match outcome with
  | .usage => IO.eprint usageText
  | .help => IO.print usageText
  | .failed message => IO.eprintln message
  | .invalid message => IO.eprintln message
  | .unreadable => IO.eprintln "The equation file cannot be read"
  | .finished report =>
    IO.eprint report.stderr
    if let some (path, text) := report.output then
      IO.FS.createDirAll (parentPath path)
      IO.FS.writeFile path text
    IO.print report.stdout
  return outcome.status.toUInt32

end TensorEquations

open TensorEquations in
/-- Runs the command line. -/
def main (arguments : List String) : IO UInt32 := do
  match CommandLine.plan arguments with
  | .done outcome => finish outcome
  | .read path next => finish (next (← readContents path))
