-- SUMMARY: Passages: a text with the place in a document where it begins.
import Polyglot.Text.Cursor

/-!
# Passages

A passage is a piece of a document that knows where it begins, so offsets into
it are offsets into the document. `Passage.slice` reads the text between two
offsets. A range that leaves the passage or cuts a character reads as empty.
-/

namespace Polyglot

/-- A text that begins at `origin`. -/
structure Passage where
  origin : Position
  text : List Char
  deriving DecidableEq

namespace Passage

/-- The cursor at the start of a passage. -/
def cursor (p : Passage) : Cursor := ⟨p.origin, p.text⟩

/-- The offset after the last character. -/
def endOffset (p : Passage) : Nat := p.origin.offset + byteLength p.text

/-- The text after the first `n` bytes, if the passage has that many and a
character ends there. -/
def dropExactly (n : Nat) (text : List Char) : Option (List Char) :=
  let (taken, rest) := splitBytes n text
  if byteLength taken = n then some rest else none

/-- The first `n` bytes of a text, if it has that many and a character ends there. -/
def takeExactly (n : Nat) (text : List Char) : Option (List Char) :=
  let taken := takeBytes n text
  if byteLength taken = n then some taken else none

/-- The text between two offsets of the document. Offsets before the passage
count as its start. -/
def slice (p : Passage) (lo hi : Nat) : List Char :=
  let lo := lo - p.origin.offset
  let hi := hi - p.origin.offset
  if hi < lo then []
  else ((dropExactly lo p.text).bind (takeExactly (hi - lo))).getD []

/-- Cutting a passage where its text divides gives that part of the text. -/
theorem slice_append (origin : Position) (a w b : List Char) :
    (⟨origin, a ++ w ++ b⟩ : Passage).slice (origin.offset + byteLength a)
      (origin.offset + byteLength a + byteLength w) = w := by
  have ha : origin.offset + byteLength a - origin.offset = byteLength a := by omega
  have hw : origin.offset + byteLength a + byteLength w - origin.offset - byteLength a
      = byteLength w := by omega
  have hle : ¬ origin.offset + byteLength a + byteLength w - origin.offset < byteLength a := by
    omega
  simp [slice, dropExactly, takeExactly, takeBytes, ha, hw, hle]

end Passage

end Polyglot
