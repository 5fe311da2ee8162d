-- SUMMARY: Findings of a scan: faults and remarks, their wording, and the log that collects them.
import Polyglot.Context
import Polyglot.Diagnostic
import Polyglot.Text.Encoding

/-!
# Findings

A scan never fails on a faulty document; it notes what it found and goes on.
`Fault` and `Remark` are the causes of errors and of warnings, and each has its
wording in one place. A `Log` collects them in the order of discovery.
-/

namespace Polyglot

/-! ## Errors -/

/-- The kinds of error. -/
inductive ErrorKind where
  | unterminatedString
  | unbalancedBraces
  | contextMismatch
  | invalidInput
  deriving DecidableEq

namespace ErrorKind

/-- The code under which a kind is reported. -/
def code : ErrorKind → Code
  | .unterminatedString => .unterminatedString
  | .unbalancedBraces => .unbalancedBraces
  | .contextMismatch => .contextMismatch
  | .invalidInput => .invalidInput

/-- The label of a kind in snippets. -/
def label : ErrorKind → String
  | .unterminatedString => "unterminated string"
  | .unbalancedBraces => "unbalanced braces"
  | .contextMismatch => "context mismatch"
  | .invalidInput => "invalid input"

end ErrorKind

/-- An error with its message and place. -/
structure ScanError where
  kind : ErrorKind
  message : String
  position : Position
  deriving DecidableEq

/-- An error as a diagnostic. -/
def ScanError.toDiagnostic (file : Option String) (e : ScanError) : Diagnostic :=
  { Diagnostic.blank e.kind.code .error with
    message := e.message
    file := file
    labels := [⟨e.position, e.kind.label, true⟩]
    notes := if e.kind = .unterminatedString then ["the string runs to the end of the input"] else []
    help := if e.kind = .unbalancedBraces then ["add the missing `\x7d`"] else [] }

/-- The causes of errors. -/
inductive Fault where
  /-- A string, opened by a quote with this byte, runs to the end of the text. -/
  | unterminatedString (quote : UInt8)
  /-- An embedded block is never closed; so many braces are open at the end. -/
  | unclosedBlock (context : Context) (depth : Nat)
  /-- A brace of the template language is never closed. -/
  | unclosedBrace (context : Context)
  /-- A closing brace has nothing to close. -/
  | unmatchedBrace
  /-- A closing brace stands where a declaration header waits for its body. -/
  | bodilessHeader (closed header : Context) (openedAt : Position)
  /-- The document has no text. -/
  | emptyInput
  /-- The document is too large to address. -/
  | oversizedInput
  deriving DecidableEq

namespace Fault

/-- The kind of error that a fault is. -/
def kind : Fault → ErrorKind
  | .unterminatedString _ => .unterminatedString
  | .unclosedBlock _ _ | .unclosedBrace _ => .unbalancedBraces
  | .unmatchedBrace | .bodilessHeader _ _ _ => .contextMismatch
  | .emptyInput | .oversizedInput => .invalidInput

/-- The wording of a fault. -/
def message : Fault → String
  | .unterminatedString quote => (OpenRegion.string quote).describe
  | .unclosedBlock context depth =>
    let s := if depth = 1 then "" else "s"
    s!"unclosed `\x7b` of {context.name} block ({depth} level{s} still open)"
  | .unclosedBrace context => s!"unclosed `\x7b` of {context.name}"
  | .unmatchedBrace => "unmatched `\x7d`"
  | .bodilessHeader closed header openedAt =>
    s!"`\x7d` closes {closed.name} but the {header.name} header at {openedAt.lineColumn} has no body"
  | .emptyInput => "empty input"
  | .oversizedInput => EncodingIssue.Kind.tooLarge.describe

/-- A fault found at a position. -/
def found (f : Fault) (pos : Position) : ScanError := ⟨f.kind, f.message, pos⟩

end Fault

/-! ## Warnings -/

/-- The kinds of warning. -/
inductive WarningKind where
  | encoding
  | unterminatedBlockComment
  | foreignSyntax
  deriving DecidableEq

/-- The code under which a kind is reported. -/
def WarningKind.code : WarningKind → Code
  | .encoding => .encoding
  | .unterminatedBlockComment => .unterminatedBlockComment
  | .foreignSyntax => .foreignSyntax

/-- A warning with its message and place. -/
structure ScanWarning where
  kind : WarningKind
  message : String
  position : Position
  deriving DecidableEq

/-- A warning as a diagnostic. -/
def ScanWarning.toDiagnostic (file : Option String) (w : ScanWarning) : Diagnostic :=
  { Diagnostic.blank w.kind.code .warning with
    message := w.message
    file := file
    labels := [⟨w.position, "here", true⟩] }

/-- The causes of warnings. -/
inductive Remark where
  /-- The text of the document is valid but hardly meant. -/
  | encoding (issue : EncodingIssue.Kind)
  /-- A block comment that began here runs to the end of the text. -/
  | unterminatedBlockComment (start : Position)
  /-- A block holds syntax of another sub-language. -/
  | foreignSyntax (marker : String) (context : Context)
  deriving DecidableEq

namespace Remark

/-- The kind of warning that a remark is. -/
def kind : Remark → WarningKind
  | .encoding _ => .encoding
  | .unterminatedBlockComment _ => .unterminatedBlockComment
  | .foreignSyntax _ _ => .foreignSyntax

/-- The wording of a remark. -/
def message : Remark → String
  | .encoding issue => issue.describe
  | .unterminatedBlockComment start =>
    s!"{OpenRegion.blockComment.describe} starting at {start.lineColumn}"
  | .foreignSyntax marker context => s!"`{marker}` inside a {context.name} block"

/-- A remark made at a position. -/
def found (r : Remark) (pos : Position) : ScanWarning := ⟨r.kind, r.message, pos⟩

end Remark

/-! ## The log -/

/-- The errors and warnings collected so far, last one first. -/
structure Log where
  recentErrors : List ScanError
  recentWarnings : List ScanWarning
  deriving DecidableEq

namespace Log

/-- Nothing was found. -/
def empty : Log := ⟨[], []⟩

/-- The errors in the order they were found. -/
def errors (log : Log) : List ScanError := log.recentErrors.reverse

/-- The warnings in the order they were found. -/
def warnings (log : Log) : List ScanWarning := log.recentWarnings.reverse

/-- Add an error. -/
def error (log : Log) (e : ScanError) : Log := { log with recentErrors := e :: log.recentErrors }

/-- Add a warning. -/
def warning (log : Log) (w : ScanWarning) : Log :=
  { log with recentWarnings := w :: log.recentWarnings }

/-- Add an unterminated region: a string is an error, a comment only a warning. -/
def guardIssue (log : Log) (issue : GuardIssue) : Log :=
  match issue.region with
  | .string quote => log.error ((Fault.unterminatedString quote).found issue.start)
  | .blockComment =>
    log.warning ((Remark.unterminatedBlockComment issue.start).found issue.start)

@[simp] theorem errors_error (log : Log) (e : ScanError) :
    (log.error e).errors = log.errors ++ [e] := by
  simp [error, errors]

@[simp] theorem errors_warning (log : Log) (w : ScanWarning) :
    (log.warning w).errors = log.errors := rfl

@[simp] theorem warnings_error (log : Log) (e : ScanError) :
    (log.error e).warnings = log.warnings := rfl

@[simp] theorem warnings_warning (log : Log) (w : ScanWarning) :
    (log.warning w).warnings = log.warnings ++ [w] := by
  simp [warning, warnings]

/-- Errors, then warnings, as diagnostics. -/
def diagnostics (file : Option String) (log : Log) : List Diagnostic :=
  log.errors.map (·.toDiagnostic file) ++ log.warnings.map (·.toDiagnostic file)

end Log

end Polyglot
