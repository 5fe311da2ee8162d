-- SUMMARY: Byte cursors: cursors that can be put at any byte, even inside a character.
import Polyglot.Brace

/-!
# Byte cursors

Offsets count bytes, so an offset that comes from outside may lie inside a
character. A byte cursor can be put at any offset. Outside of characters it
does what a cursor does. Inside of one no text and no guarded region lies
ahead; the bytes that are left are read one at a time, each as a column, and
whatever passes over them as a whole does not count them.
-/

namespace Polyglot

/-- A cursor that may stand inside a character. -/
structure ByteCursor where
  position : Position
  /-- What is left of the character that the cursor stands inside of. -/
  left : List UInt8
  /-- The text from the next whole character on. -/
  rest : List Char
  deriving DecidableEq

namespace ByteCursor

/-! ## Views -/

/-- A cursor as a byte cursor. -/
def ofCursor (c : Cursor) : ByteCursor := ⟨c.position, [], c.rest⟩

/-- The cursor at the next whole character. The bytes on the way there add no column. -/
def nextWhole (b : ByteCursor) : Cursor :=
  ⟨{ b.position with offset := b.position.offset + b.left.length }, b.rest⟩

/-- The cursor at the same place, unless that is inside a character. -/
def cursor? (b : ByteCursor) : Option Cursor := if b.left.isEmpty then some b.nextWhole else none

@[simp] theorem nextWhole_ofCursor (c : Cursor) : (ofCursor c).nextWhole = c := rfl

@[simp] theorem cursor?_ofCursor (c : Cursor) : (ofCursor c).cursor? = some c := rfl

/-- The byte offset. -/
abbrev offset (b : ByteCursor) : Nat := b.position.offset

/-- No byte is left. -/
def atEnd (b : ByteCursor) : Bool := b.left.isEmpty && b.rest.isEmpty

/-- The byte `k` places ahead, or zero past the end. -/
def byte (b : ByteCursor) (k : Nat) : UInt8 :=
  if k < b.left.length then b.left.getD k 0 else byteAt (k - b.left.length) b.rest

/-- All bytes ahead. -/
def bytes (b : ByteCursor) : List UInt8 := b.left ++ b.rest.flatMap String.utf8EncodeChar

/-- The text ahead. Inside a character there is none. -/
def text (b : ByteCursor) : List Char := (b.cursor?.map Cursor.rest).getD []

/-! ## Moving -/

/-- Move as a cursor does; inside a character, stay. -/
def move (f : Cursor → Cursor) (b : ByteCursor) : ByteCursor :=
  (b.cursor?.map fun c => ofCursor (f c)).getD b

/-- Move over one character, or over one byte inside of one. At the end, stay. -/
def advance (b : ByteCursor) : ByteCursor :=
  match b.left with
  | [] => ofCursor b.nextWhole.advance
  | _ :: left => ⟨b.position.forward 1, left, b.rest⟩

/-- Outside of characters a move is the cursor's. -/
@[simp] theorem move_ofCursor (f : Cursor → Cursor) (c : Cursor) :
    (ofCursor c).move f = ofCursor (f c) := rfl

@[simp] theorem advance_ofCursor (c : Cursor) : (ofCursor c).advance = ofCursor c.advance := rfl

/-- Move on `n` times, or to the end if that comes first. -/
def skip : Nat → ByteCursor → ByteCursor
  | 0, b => b
  | n + 1, b => if b.atEnd then b else skip n b.advance

/-- The place `n` bytes after a cursor, or the end if that comes first. A
character that is entered counts as a column. -/
def within (n : Nat) (c : Cursor) : ByteCursor :=
  let (before, rest) := splitBytes n c.rest
  let position := c.position.advanceOver before
  let inner := n - byteLength before
  match rest with
  | ch :: after =>
    if inner = 0 then ⟨position, [], rest⟩
    else
      ⟨⟨position.offset + inner, position.line, position.column + 1⟩,
        (String.utf8EncodeChar ch).drop inner, after⟩
  | [] => ⟨position, [], []⟩

/-- Move to an offset, or to the end of the text if that comes first. An offset
that lies behind leaves the cursor where it is. -/
def jumpTo (target : Nat) (b : ByteCursor) : ByteCursor :=
  let n := target - b.offset
  if n < b.left.length then
    { b with position := { b.position with offset := b.offset + n }, left := b.left.drop n }
  else within (n - b.left.length) b.nextWhole

/-- Move to the end. -/
def toEnd (b : ByteCursor) : ByteCursor := ofCursor b.nextWhole.toEnd

/-- Move to the end of the line, in front of its line feed. -/
def toLineEnd (b : ByteCursor) : ByteCursor := ofCursor b.nextWhole.toLineEnd

theorem within_of_consumes {c d : Cursor} {text : List Char} (h : c.Consumes text d) :
    within (byteLength text) c = ofCursor d := by
  obtain ⟨hr, hp⟩ := h
  have hs : splitBytes (byteLength text) c.rest = (text, d.rest) := by
    rw [hr, splitBytes_byteLength]
  unfold within
  simp only [hs, Nat.sub_self, ← hp]
  cases hd : d.rest <;> simp [ofCursor, hd]

/-- A jump to where a cursor can go leads to that cursor. -/
theorem jumpTo_of_consumes {c d : Cursor} {text : List Char} (h : c.Consumes text d) :
    (ofCursor c).jumpTo d.offset = ofCursor d := by
  have hn : d.offset - (ofCursor c).offset = byteLength text := by
    simp [Cursor.offset, offset, ofCursor, h.2]
  unfold jumpTo
  rw [hn]
  exact within_of_consumes h

/-! ## Reading and searching -/

/-- The text ahead begins with `text`. -/
def startsWith (b : ByteCursor) (text : List Char) : Bool :=
  (b.cursor?.map (·.startsWith text)).getD text.isEmpty

/-- The cursor after `text`, if `text` lies ahead. -/
def eat (b : ByteCursor) (text : List Char) : Option ByteCursor :=
  match b.cursor? with
  | some c => (c.eat text).map ofCursor
  | none => if text.isEmpty then some b else none

@[simp] theorem eat_ofCursor (c : Cursor) (text : List Char) :
    (ofCursor c).eat text = (c.eat text).map ofCursor := rfl

/-- The offset of the first occurrence of `needle` ahead. -/
def find (needle : List Char) (b : ByteCursor) : Option Nat :=
  if needle.isEmpty then some b.offset else (b.nextWhole.find needle).map Cursor.offset

/-- The offset of the first byte ahead that satisfies `p`. -/
def findByte (p : UInt8 → Bool) (b : ByteCursor) : Option Nat :=
  (b.bytes.findIdx? p).map (b.offset + ·)

/-! ## Guarded regions -/

/-- The kind of guarded region that begins here. None begins inside a character. -/
def guardAt (set : GuardSet) (b : ByteCursor) : Option GuardKind :=
  b.cursor?.bind fun c => set.kindAt c.rest

/-- Do what a cursor does about a guarded region; inside a character there is none. -/
def skipWith (f : Cursor → Cursor.Guard × Cursor) (b : ByteCursor) :
    Cursor.Guard × ByteCursor :=
  match b.cursor? with
  | some c => ((f c).1, ofCursor (f c).2)
  | none => (.clear, b)

/-- Skip the guarded region ahead, if there is one. -/
def skipGuarded (set : GuardSet) : ByteCursor → Cursor.Guard × ByteCursor :=
  skipWith (·.skipGuarded set)

/-- Skip the comment ahead, if there is one. -/
def skipComment (set : GuardSet) : ByteCursor → Cursor.Guard × ByteCursor :=
  skipWith (·.skipComment set)

@[simp] theorem skipWith_ofCursor (f : Cursor → Cursor.Guard × Cursor) (c : Cursor) :
    (ofCursor c).skipWith f = ((f c).1, ofCursor (f c).2) := rfl

/-- The place after the first byte `quote`, which begins no character. `left`
is left of the character before `rest`. A backslash takes the character after
it along. -/
def stringEnd (quote : UInt8) (pos : Position) (left : List UInt8) (rest : List Char) :
    Option ByteCursor :=
  let before := left.takeWhile (· != quote)
  let pos := { pos with offset := pos.offset + before.length }
  match left.drop before.length with
  | _ :: after => some ⟨pos.forward 1, after, rest⟩
  | [] =>
    match rest with
    | [] => none
    | ch :: rest =>
      if ch = '\\' then
        match rest with
        | [] => none
        | escaped :: rest => stringEnd quote ((pos.advance ch).advance escaped) [] rest
      else
        stringEnd quote { pos.advance ch with offset := pos.offset + 1 }
          ((String.utf8EncodeChar ch).drop 1) rest

/-- Skip a string, whose quote is the byte ahead, whatever it is. A string that
is not closed is skipped to the end and is an issue. -/
def skipString (b : ByteCursor) : Option GuardIssue × ByteCursor :=
  match b.left with
  | [] =>
    match b.nextWhole.skipString with
    | .ok after => (none, ofCursor after.cursor)
    | .error issue => (some issue, b.toEnd)
  | quote :: left =>
    match stringEnd quote (b.position.forward 1) left b.rest with
    | some d => (none, d)
    | none => (some ⟨.string quote, b.position⟩, b.advance.toEnd)

/-! ## Braces -/

/-- The brace that closes what is opened here. -/
def matchingClose (set : GuardSet) (b : ByteCursor) : Except Unbalanced Cursor :=
  match b.left with
  | [] => (b.nextWhole.matchingClose set).map Cursor.Later.cursor
  | left =>
    match Cursor.closeFrom set 1 ⟨b.position.forward left.length, b.rest⟩ with
    | .ok d => .ok d
    | .error (depth, issue) => .error ⟨b.position, depth, issue⟩

end ByteCursor

end Polyglot
