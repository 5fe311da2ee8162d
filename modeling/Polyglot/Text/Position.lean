-- SUMMARY: Positions in a document: byte offset, line and column.
import Polyglot.Text.Utf8

/-!
# Positions

A position is a byte offset with the line and column it lies on. Lines and
columns start at 1, a column counts characters, and only a line feed ends a
line. `Position.advanceOver` is the only way positions are computed, so two
walks over the same text agree on them. The three numbers are counted without a
bound here; `Polyglot.Text.Packed` has the position as it is stored, in which
they may be full.
-/

namespace Polyglot

/-- A point in a document. -/
structure Position where
  offset : Nat
  line : Nat
  column : Nat
  deriving DecidableEq

namespace Position

/-- The first byte of a document. -/
def start : Position := ⟨0, 1, 1⟩

/-- The position after one character. -/
def advance (p : Position) (c : Char) : Position :=
  if c = '\n' then ⟨p.offset + c.utf8Size, p.line + 1, 1⟩
  else ⟨p.offset + c.utf8Size, p.line, p.column + 1⟩

/-- The position after a text. -/
def advanceOver (p : Position) (text : List Char) : Position := text.foldl advance p

@[simp] theorem advance_offset (p : Position) (c : Char) :
    (p.advance c).offset = p.offset + c.utf8Size := by
  unfold advance
  split <;> rfl

@[simp] theorem advanceOver_nil (p : Position) : p.advanceOver [] = p := rfl

@[simp] theorem advanceOver_cons (p : Position) (c : Char) (text : List Char) :
    p.advanceOver (c :: text) = (p.advance c).advanceOver text := rfl

@[simp] theorem advanceOver_append (p : Position) (a b : List Char) :
    p.advanceOver (a ++ b) = (p.advanceOver a).advanceOver b := by
  simp [advanceOver]

/-- The offset grows by the length of the text. -/
@[simp] theorem advanceOver_offset (p : Position) (text : List Char) :
    (p.advanceOver text).offset = p.offset + byteLength text := by
  induction text generalizing p with
  | nil => rfl
  | cons c text ih =>
    simp only [advanceOver_cons, ih, advance_offset, byteLength_cons]
    omega

/-- The position `n` bytes on, each of them a column of the same line. -/
def forward (p : Position) (n : Nat) : Position := ⟨p.offset + n, p.line, p.column + n⟩

/-- The position after one byte. -/
def bump (p : Position) (byte : UInt8) : Position :=
  if byte = 0x0A then ⟨p.offset + 1, p.line + 1, 1⟩
  else if isInnerByte byte then { p with offset := p.offset + 1 }
  else p.forward 1

/-- Written `line:column`. -/
def lineColumn (p : Position) : String := s!"{p.line}:{p.column}"

end Position

end Polyglot
