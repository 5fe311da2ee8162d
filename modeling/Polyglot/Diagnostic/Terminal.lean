-- SUMMARY: Diagnostics as text for a terminal, with colours and snippets of the document.
import Polyglot.Diagnostic
import Polyglot.Text.Utf8

/-!
# Terminal text

A diagnostic is written for a reader: a header, its labels, notes and help.
Where the document is at hand, each label is drawn as a caret under the line it
points at. Colours are escape sequences around single words, and are left out
unless they are wanted.
-/

namespace Polyglot

namespace Terminal

/-! ## Colours -/

/-- When colours are wanted. -/
inductive ColorMode where
  /-- If the text goes to a terminal. -/
  | auto
  | always
  | never
  deriving DecidableEq

/-- Whether colours are used, given whether the text goes to a terminal. -/
def ColorMode.usesColors (isTerminal : Bool) : ColorMode → Bool
  | .auto => isTerminal
  | .always => true
  | .never => false

/-- The name of a mode. -/
def ColorMode.name : ColorMode → String
  | .auto => "auto"
  | .always => "always"
  | .never => "never"

/-- The mode with a given name. -/
def ColorMode.ofName? (name : String) : Option ColorMode :=
  [ColorMode.auto, .always, .never].find? (·.name = name)

theorem ColorMode.ofName?_name (m : ColorMode) : ofName? m.name = some m := by
  cases m <;> decide

/-- The parts of a diagnostic that have a colour. -/
inductive Role where
  | error
  | warning
  | code
  | gutter
  | note
  | help
  deriving DecidableEq

/-- The escape sequence that begins a colour. -/
def Role.sequence : Role → String
  | .error => "\x1b[1;31m"
  | .warning => "\x1b[1;33m"
  | .code => "\x1b[1m"
  | .gutter => "\x1b[1;34m"
  | .note => "\x1b[1;36m"
  | .help => "\x1b[1;32m"

/-- The colour of a severity. -/
def Role.ofSeverity : Severity → Role
  | .error => .error
  | .warning => .warning

/-- Text in the colour of its role, if colours are used. -/
def paint (colors : Bool) (role : Role) (text : String) : String :=
  if colors then role.sequence ++ text ++ "\x1b[0m" else text

/-! ## Snippets -/

/-- The line of a document that an offset lies on, without its line end. An
offset past the end counts as the end; one inside a character has no line. -/
def lineAt (source : List Char) (offset : Nat) : Option (List Char) :=
  let (before, after) := splitBytes offset source
  if byteLength before < offset && !after.isEmpty then none
  else
    let head := (before.reverse.takeWhile (· != '\n')).reverse
    let line := head ++ after.takeWhile (· != '\n')
    some (if line.getLast? = some '\r' then line.dropLast else line)

/-- The blanks under a line up to a column. Tabs stay, so that a caret after
them stands under its character. -/
def indent (line : List Char) (column : Nat) : List Char :=
  (line.take (column - 1)).map fun c => if c = '\t' then '\t' else ' '

/-- The colour of a label's own text. -/
def labelRole (d : Diagnostic) (l : Label) : Role :=
  if l.isPrimary then .ofSeverity d.severity else .gutter

/-- A label drawn under its line. -/
def snippet (colors : Bool) (d : Diagnostic) (l : Label) (line : List Char) : String :=
  let number := toString l.position.line
  let pad := String.ofList (List.replicate number.length ' ')
  let bar := paint colors .gutter s!"{pad} |"
  let caret := if l.isPrimary then "^" else "-"
  s!"{pad} {l.arrow} {d.location l.position}\n" ++ bar ++ "\n" ++
    paint colors .gutter s!"{number} |" ++ " " ++ String.ofList line ++ "\n" ++
    bar ++ " " ++ String.ofList (indent line l.position.column) ++
    paint colors (labelRole d l) s!"{caret} {l.message}" ++ "\n"

/-- A label, as a snippet if its line is known. -/
def label (colors : Bool) (source : Option (List Char)) (d : Diagnostic) (l : Label) : String :=
  match source.bind (lineAt · l.position.offset) with
  | some line => snippet colors d l line
  | none =>
    s!"  {l.arrow} {d.location l.position}: " ++ paint colors (labelRole d l) l.message ++ "\n"

/-! ## Diagnostics -/

/-- A note or a help entry. -/
def remark (colors : Bool) (role : Role) (word text : String) : String :=
  "  = " ++ paint colors role word ++ s!": {text}\n"

/-- A diagnostic, with snippets if the document is given. An empty line ends it. -/
def render (colors : Bool) (source : Option (List Char)) (d : Diagnostic) : String :=
  paint colors (.ofSeverity d.severity) d.severity.name ++
    paint colors .code s!"[{d.code.name}]" ++ s!": {d.message}\n" ++
    String.join (d.labels.map (label colors source d)) ++
    String.join (d.notes.map (remark colors .note "note")) ++
    String.join (d.help.map (remark colors .help "help")) ++ "\n"

/-- A number of things, with the noun in the right form. -/
def counted (n : Nat) (noun : String) : String := if n = 1 then s!"1 {noun}" else s!"{n} {noun}s"

/-- The closing line with the numbers of errors and warnings, if there are any. -/
def summary (colors : Bool) (errors warnings : Nat) : String :=
  let parts := (if 0 < errors then [counted errors "error"] else []) ++
    (if 0 < warnings then [counted warnings "warning"] else [])
  let found := String.intercalate " and " parts
  let report (severity : Severity) : String :=
    paint colors (.ofSeverity severity) severity.name ++ s!": scan found {found}\n"
  if 0 < errors then report .error else if 0 < warnings then report .warning else ""

end Terminal

end Polyglot
