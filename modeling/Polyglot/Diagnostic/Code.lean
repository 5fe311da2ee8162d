-- SUMMARY: Diagnostic codes: stable identifiers of what can be reported.

/-!
# Diagnostic codes

Every reported problem has a code, by which it can be looked up. A code's
letter tells errors from warnings.
-/

namespace Polyglot

/-- How grave a diagnostic is. -/
inductive Severity where
  | error
  | warning
  deriving DecidableEq

/-- The name of a severity in reports. -/
def Severity.name : Severity → String
  | .error => "error"
  | .warning => "warning"

/-- The codes. -/
inductive Code where
  | unterminatedString
  | unbalancedBraces
  | contextMismatch
  | invalidInput
  | encoding
  | unterminatedBlockComment
  | foreignSyntax
  deriving DecidableEq

namespace Code

/-- Every code, in listing order. -/
def all : List Code :=
  [.unterminatedString, .unbalancedBraces, .contextMismatch, .invalidInput, .encoding,
    .unterminatedBlockComment, .foreignSyntax]

theorem mem_all (c : Code) : c ∈ all := by cases c <;> decide

/-- The identifier of a code. -/
def name : Code → String
  | .unterminatedString => "E0001"
  | .unbalancedBraces => "E0002"
  | .contextMismatch => "E0003"
  | .invalidInput => "E0004"
  | .encoding => "W0001"
  | .unterminatedBlockComment => "W0002"
  | .foreignSyntax => "W0003"

/-- A few words on what a code is about. -/
def summary : Code → String
  | .unterminatedString => "unterminated string literal"
  | .unbalancedBraces => "unbalanced braces"
  | .contextMismatch => "context mismatch"
  | .invalidInput => "invalid input"
  | .encoding => "encoding issue"
  | .unterminatedBlockComment => "unterminated block comment"
  | .foreignSyntax => "foreign syntax in block"

/-- The code reports a warning. -/
def isWarning : Code → Bool
  | .encoding | .unterminatedBlockComment | .foreignSyntax => true
  | _ => false

/-- The code rejects a document before it is scanned. -/
def isFatal (c : Code) : Bool := c = .invalidInput

/-- The severity that a code is reported with. -/
def severity (c : Code) : Severity := if c.isWarning then .warning else .error

/-- The code with a given identifier, whose letter may be written small. No
letter outside ASCII has a capital that occurs in an identifier. -/
def ofName? (name : String) : Option Code :=
  all.find? (·.name.toList = name.toList.map Char.toUpper)

theorem ofName?_name (c : Code) : ofName? c.name = some c := by cases c <;> decide

end Code

end Polyglot
