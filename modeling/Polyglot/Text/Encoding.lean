-- SUMMARY: Encoding findings: byte order mark, null characters, documents too large to address.
import Polyglot.Text.Position

/-!
# Encoding findings

A document is looked through once before it is scanned. A byte order mark at
its start and every null character are found where they stand. A document
whose offsets do not fit into 32 bits is not looked through at all.
-/

namespace Polyglot

/-- What was found. -/
inductive EncodingIssue.Kind where
  | byteOrderMark
  | nullCharacter
  | tooLarge
  deriving DecidableEq

/-- A finding, where it begins and how many bytes it covers. -/
structure EncodingIssue where
  kind : EncodingIssue.Kind
  position : Position
  width : Nat
  deriving DecidableEq

namespace EncodingIssue

/-- The wording of a finding. -/
def Kind.describe : Kind → String
  | .byteOrderMark => "byte order mark at start of file"
  | .nullCharacter => "null byte in source"
  | .tooLarge => "source exceeds 4 GiB"

/-- The most bytes a document may have. -/
def sizeLimit : Nat := 0xFFFFFFFF

/-- The mark some editors put at the start of a file. -/
def byteOrderMark : Char := '\uFEFF'

/-- The null characters of a text that begins at `pos`. `found` holds the
earlier ones, last one first. -/
def nullsFrom : Position → List Char → List EncodingIssue → List EncodingIssue
  | _, [], found => found.reverse
  | pos, c :: text, found =>
    nullsFrom (pos.advance c) text
      (if c = '\x00' then ⟨.nullCharacter, pos, 1⟩ :: found else found)

/-- The null characters of a document, in order. -/
def nullCharacters (text : List Char) : List EncodingIssue := nullsFrom .start text []

/-- Every finding in a document, in order. -/
def all (text : List Char) : List EncodingIssue :=
  if sizeLimit < byteLength text then [⟨.tooLarge, .start, sizeLimit⟩]
  else
    let mark := if text.head? = some byteOrderMark then [⟨.byteOrderMark, .start, 3⟩] else []
    mark ++ nullCharacters text

/-- The document is too large to address. -/
def isOversized (text : List Char) : Bool := (all text).any (·.kind = .tooLarge)

end EncodingIssue

end Polyglot
