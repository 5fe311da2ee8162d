-- SUMMARY: Arguments of the commands that read documents.
import Polyglot.Diagnostic.Terminal
import Polyglot.Options

/-!
# Arguments

Flags and file names may come in any order. An argument that begins with a
hyphen is a flag, except for a hyphen alone. The first argument that is wrong
decides the error; that files are missing is found last.
-/

namespace Polyglot

/-- The arguments of the commands that list a document. -/
structure ScanArguments where
  files : List String
  options : Options
  deriving DecidableEq

/-- The arguments of the command that reports problems. -/
structure CheckArguments extends ScanArguments where
  color : Terminal.ColorMode
  json : Bool
  deriving DecidableEq

/-- What can be wrong with arguments. -/
inductive ArgumentError where
  | missingFile
  | unknownOption (argument : String)
  | invalidWindow (value : String)
  | invalidColor (value : String)
  deriving DecidableEq

/-- The wording of an argument error. -/
def ArgumentError.message : ArgumentError → String
  | .missingFile => "missing file path"
  | .unknownOption argument => s!"unknown option '{argument}'"
  | .invalidWindow value => s!"invalid stitch window '{value}'"
  | .invalidColor value => s!"invalid color mode '{value}' (expected auto, always or never)"

/-! ## Values -/

/-- What follows a key in an argument, if the argument begins with the key. -/
def valueOf? (key argument : String) : Option String :=
  if key.toList.isPrefixOf argument.toList then
    some (String.ofList (argument.toList.drop key.length))
  else none

/-- The largest window that can be asked for. -/
def windowLimit : Nat := 0xFFFFFFFFFFFFFFFF

/-- A window as a decimal number, which a plus sign may precede. -/
def window? (value : String) : Option Nat :=
  let digits := match value.toList with
    | '+' :: digits => digits
    | digits => digits
  if digits.isEmpty || !digits.all Char.isDigit then none
  else
    let n := digits.foldl (fun n d => 10 * n + (d.toNat - '0'.toNat)) 0
    if n ≤ windowLimit then some n else none

/-! ## Reading arguments -/

/-- Read one argument: a flag changes the options, anything else is a file. -/
def ScanArguments.read (a : ScanArguments) (argument : String) :
    Except ArgumentError ScanArguments :=
  match argument with
  | "--no-aggregate" => .ok { a with options.aggregate := false }
  | "--no-split-statements" => .ok { a with options.splitStatements := false }
  | "--no-generator-comments" => .ok { a with options.generatorComments := false }
  | "--global-root" => .ok { a with options.rootAsElement := false }
  | _ =>
    match valueOf? "--stitch-window=" argument with
    | some value =>
      match window? value with
      | some n => .ok { a with options.stitchWindow := n }
      | none => .error (.invalidWindow value)
    | none =>
      if argument.toList.head? = some '-' && 1 < argument.length then
        .error (.unknownOption argument)
      else .ok { a with files := a.files ++ [argument] }

/-- Read one argument of the command that reports problems. -/
def CheckArguments.read (a : CheckArguments) (argument : String) :
    Except ArgumentError CheckArguments :=
  match valueOf? "--color=" argument with
  | some value =>
    match Terminal.ColorMode.ofName? value with
    | some color => .ok { a with color := color }
    | none => .error (.invalidColor value)
  | none =>
    if argument = "--json" then .ok { a with json := true }
    else (a.toScanArguments.read argument).map fun s => { a with toScanArguments := s }

/-- No argument was read. -/
def ScanArguments.initial : ScanArguments := ⟨[], .standard⟩

/-- Read the arguments of a command that lists a document. -/
def ScanArguments.parse (arguments : List String) : Except ArgumentError ScanArguments := do
  let a ← arguments.foldlM ScanArguments.read .initial
  if a.files.isEmpty then .error .missingFile else .ok a

/-- Read the arguments of the command that reports problems. -/
def CheckArguments.parse (arguments : List String) : Except ArgumentError CheckArguments := do
  let a ← arguments.foldlM CheckArguments.read ⟨.initial, .auto, false⟩
  if a.files.isEmpty then .error .missingFile else .ok a

end Polyglot
