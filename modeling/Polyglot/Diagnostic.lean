-- SUMMARY: Diagnostics: reportable problems with everything needed to print them.
import Polyglot.Diagnostic.Code
import Polyglot.Text.Position

/-!
# Diagnostics

A diagnostic stands on its own: code, severity, message, file, labels, notes
and help. The text of the document is only needed to draw a snippet.
-/

namespace Polyglot

/-- A message pinned to a position. -/
structure Label where
  position : Position
  message : String
  /-- The position the diagnostic is about, and not a related one. -/
  isPrimary : Bool
  deriving DecidableEq

/-- The arrow in front of a label's location. -/
def Label.arrow (l : Label) : String := if l.isPrimary then "-->" else "..."

/-- A reportable problem. -/
structure Diagnostic where
  code : Code
  severity : Severity
  message : String
  /-- The file that the positions refer to, if it is known. -/
  file : Option String
  labels : List Label
  notes : List String
  /-- How to mend it. -/
  help : List String
  deriving DecidableEq

namespace Diagnostic

/-- A diagnostic that says nothing yet. -/
def blank (code : Code) (severity : Severity) : Diagnostic :=
  ⟨code, severity, "", none, [], [], []⟩

/-- The position the diagnostic is about: that of its first primary label. -/
def primaryPosition (d : Diagnostic) : Option Position :=
  (d.labels.find? Label.isPrimary).map Label.position

/-- A position written with the file, if it is known. -/
def location (d : Diagnostic) (p : Position) : String :=
  match d.file with
  | some file => s!"{file}:{p.lineColumn}"
  | none => p.lineColumn

/-- The diagnostic reports an error. -/
def isError (d : Diagnostic) : Bool := d.severity = .error

/-- A header line, then one line for each label, note and help entry. -/
def describe (d : Diagnostic) : String :=
  let header := s!"{d.severity.name}[{d.code.name}]: {d.message}"
  let labels := d.labels.map fun l => s!"\n  {l.arrow} {d.location l.position}: {l.message}"
  let notes := d.notes.map fun note => s!"\n  = note: {note}"
  let help := d.help.map fun help => s!"\n  = help: {help}"
  header ++ String.join (labels ++ notes ++ help)

/-- The numbers of errors and of warnings among some diagnostics. -/
def tally (ds : List Diagnostic) : Nat × Nat :=
  (ds.countP isError, ds.countP (!·.isError))

end Diagnostic

end Polyglot
