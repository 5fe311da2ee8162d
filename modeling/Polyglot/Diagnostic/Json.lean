-- SUMMARY: Diagnostics as one JSON array.
import Polyglot.Diagnostic
import Polyglot.Text.Quoted

/-!
# JSON text

For other programs, diagnostics are gathered and written as one JSON array,
each on a line of its own. Only what JSON requires is escaped, and controls
above ASCII with it; every other character is written as it is.
-/

namespace Polyglot

namespace Json

/-! ## Values -/

/-- The form of a character in a JSON string. -/
def escape (c : Char) : List Char :=
  match c with
  | '"' => ['\\', '"']
  | '\\' => ['\\', '\\']
  | '\n' => ['\\', 'n']
  | '\r' => ['\\', 'r']
  | '\t' => ['\\', 't']
  | _ =>
    if isControl c then
      let digits := hexDigits c.toNat
      ['\\', 'u'] ++ List.replicate (4 - digits.length) '0' ++ digits
    else [c]

/-- A JSON string. -/
def string (s : String) : String := String.ofList ('"' :: s.toList.flatMap escape ++ ['"'])

/-- A JSON array of texts that are JSON. -/
def array (items : List String) : String := "[" ++ String.intercalate "," items ++ "]"

/-- Write a member of an object, whose value is JSON, behind what was written of it. A comma is
due where this is more than the opening brace. -/
def member (written : String) (field : String × String) : String :=
  (if 1 < written.utf8ByteSize then written ++ "," else written) ++ string field.1 ++ ":" ++ field.2

/-- A JSON object, whose values are JSON. -/
def object (fields : List (String × String)) : String := fields.foldl member "\x7b" ++ "\x7d"

/-- A truth value. -/
def bool (b : Bool) : String := if b then "true" else "false"

/-! ## Diagnostics -/

/-- A label. -/
def label (l : Label) : String :=
  object
    [("offset", toString l.position.offset), ("line", toString l.position.line),
      ("column", toString l.position.column), ("message", string l.message),
      ("primary", bool l.isPrimary)]

/-- A diagnostic. -/
def diagnostic (d : Diagnostic) : String :=
  object
    [("code", string d.code.name), ("severity", string d.severity.name),
      ("message", string d.message), ("file", (d.file.map string).getD "null"),
      ("labels", array (d.labels.map label)), ("notes", array (d.notes.map string)),
      ("help", array (d.help.map string))]

/-- All diagnostics as one array and a line feed. -/
def report (ds : List Diagnostic) : String :=
  let body := String.intercalate ",\n  " (ds.map diagnostic)
  if body.isEmpty then "[]\n" else "[\n  " ++ body ++ "\n]\n"

/-! ## Gathering -/

/-- Diagnostics that wait to be written. -/
structure Buffer where
  pending : List Diagnostic
  deriving DecidableEq

/-- Nothing waits. -/
def Buffer.empty : Buffer := ⟨[]⟩

/-- Add diagnostics in order. -/
def Buffer.add (b : Buffer) (ds : List Diagnostic) : Buffer := ⟨b.pending ++ ds⟩

/-- The report on all that waits, after which nothing waits. -/
def Buffer.flush (b : Buffer) : String × Buffer := (report b.pending, .empty)

end Json

end Polyglot
