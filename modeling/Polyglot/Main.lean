-- SUMMARY: The command line program.
import Polyglot.Command

/-!
# The program

Reads the files that a command asks for, runs the command and prints what it
says. All decisions are made in `Polyglot.Command`.
-/

namespace Polyglot

/-- Read a file of a command. -/
def readFile (path : String) : IO FileContent := do
  try
    let bytes ← IO.FS.readBinFile path
    match String.fromUTF8? bytes with
    | some text => return .text text.toList
    | none => return .invalidUtf8
  catch e =>
    match e with
    | .noFileOrDirectory .. => return .missing
    | .permissionDenied .. => return .forbidden
    | .inappropriateType .. => return .unreadable "Is a directory (os error 21)"
    | e => return .unreadable (toString e)

end Polyglot

/-- Run the command of a command line. -/
def main (arguments : List String) : IO UInt32 := do
  let command := Polyglot.Command.parse arguments
  let contents ← command.files.mapM fun path => return (path, ← Polyglot.readFile path)
  let read (path : String) : Polyglot.FileContent := (contents.lookup path).getD .missing
  let isTerminal ← (← IO.getStderr).isTty
  let outcome := command.run isTerminal read
  IO.print outcome.out
  IO.eprint outcome.err
  return outcome.status.toUInt32
