-- SUMMARY: Cursors: a position with the text that lies ahead of it.
import Polyglot.Text.Class
import Polyglot.Text.Position

/-!
# Cursors

A cursor is a position in a document together with the text from there on.
`Cursor.Consumes` says what a move has read; `Cursor.Later` is a cursor that
has read something, which is why every walk over a document ends.
-/

namespace Polyglot

/-- A position with the text that lies ahead. -/
structure Cursor where
  position : Position
  rest : List Char
  deriving DecidableEq

namespace Cursor

/-- The byte offset of a cursor. -/
abbrev offset (c : Cursor) : Nat := c.position.offset

/-- No text is left. -/
def atEnd (c : Cursor) : Bool := c.rest.isEmpty

/-- The offset after the last character. -/
def endOffset (c : Cursor) : Nat := c.offset + byteLength c.rest

/-- Move over one character; at the end, stay. -/
def advance (c : Cursor) : Cursor :=
  match c.rest with
  | [] => c
  | ch :: rest => ⟨c.position.advance ch, rest⟩

/-- Move over `n` characters, or to the end if there are fewer. -/
def skip : Nat → Cursor → Cursor
  | 0, c => c
  | n + 1, c => if c.atEnd then c else skip n c.advance

/-- Move to the end. -/
def toEnd (c : Cursor) : Cursor := ⟨c.position.advanceOver c.rest, []⟩

/-! ## What a move has read -/

/-- Reading `text` from `c` leads to `d`. -/
def Consumes (c : Cursor) (text : List Char) (d : Cursor) : Prop :=
  c.rest = text ++ d.rest ∧ d.position = c.position.advanceOver text

/-- `d` lies at or after `c` in the same text. -/
def Reaches (c d : Cursor) : Prop := ∃ text, c.Consumes text d

theorem Consumes.refl (c : Cursor) : c.Consumes [] c := ⟨rfl, rfl⟩

theorem Consumes.trans {a b c : Cursor} {u v : List Char}
    (h : a.Consumes u b) (k : b.Consumes v c) : a.Consumes (u ++ v) c := by
  obtain ⟨hr, hp⟩ := h
  obtain ⟨kr, kp⟩ := k
  exact ⟨by rw [hr, kr, List.append_assoc], by rw [kp, hp, Position.advanceOver_append]⟩

theorem Consumes.length_le {c d : Cursor} {text : List Char} (h : c.Consumes text d) :
    d.rest.length ≤ c.rest.length := by
  simp [h.1]

theorem Reaches.refl (c : Cursor) : c.Reaches c := ⟨[], Consumes.refl c⟩

theorem Reaches.trans {a b c : Cursor} (h : a.Reaches b) (k : b.Reaches c) : a.Reaches c := by
  obtain ⟨u, hu⟩ := h
  obtain ⟨v, hv⟩ := k
  exact ⟨u ++ v, hu.trans hv⟩

theorem reaches_advance (c : Cursor) : c.Reaches c.advance := by
  unfold advance
  split
  · exact Reaches.refl c
  · next ch rest h => exact ⟨[ch], by simp [h], rfl⟩

theorem reaches_toEnd (c : Cursor) : c.Reaches c.toEnd := ⟨c.rest, by simp [toEnd], rfl⟩

/-- A cursor that has read at least one character since `c`. -/
structure Later (c : Cursor) where
  cursor : Cursor
  reached : ∃ ch text, c.Consumes (ch :: text) cursor

/-- The measure by which walks end. -/
theorem Later.length_lt {c : Cursor} (l : c.Later) : l.cursor.rest.length < c.rest.length := by
  obtain ⟨ch, text, h, _⟩ := l.reached
  rw [h, List.cons_append, List.length_cons, List.length_append]
  omega

theorem Later.reaches {c : Cursor} (l : c.Later) : c.Reaches l.cursor := by
  obtain ⟨ch, text, h⟩ := l.reached
  exact ⟨ch :: text, h⟩

/-- To move on from a later cursor keeps it later. -/
def Later.move {c : Cursor} (l : c.Later) (d : Cursor) (h : l.cursor.Reaches d) : c.Later :=
  ⟨d, by
    obtain ⟨ch, text, hl⟩ := l.reached
    obtain ⟨more, hd⟩ := h
    exact ⟨ch, text ++ more, hl.trans hd⟩⟩

/-- To start out from an earlier cursor keeps it later. -/
def Later.since {b c : Cursor} (l : c.Later) (h : b.Reaches c) : b.Later :=
  ⟨l.cursor, by
    obtain ⟨ch, text, hl⟩ := l.reached
    obtain ⟨u, hb⟩ := h
    cases u with
    | nil => exact ⟨ch, text, hb.trans hl⟩
    | cons x u => exact ⟨x, u ++ ch :: text, hb.trans hl⟩⟩

/-- To move to the end keeps a cursor later. -/
def Later.toEnd {c : Cursor} (l : c.Later) : c.Later := l.move l.cursor.toEnd l.cursor.reaches_toEnd

/-- The cursor after the character ahead. -/
def next (c : Cursor) (ch : Char) (rest : List Char) (h : c.rest = ch :: rest) : c.Later :=
  ⟨⟨c.position.advance ch, rest⟩, ch, [], by simp [h], rfl⟩

/-! ## Reading a fixed text -/

/-- The text ahead begins with `text`. -/
def startsWith (c : Cursor) (text : List Char) : Bool := text.isPrefixOf c.rest

/-- The cursor after `text`, if `text` lies ahead. Each byte of the text counts
as a column, which is right for ASCII without a line feed. -/
def eat (c : Cursor) (text : List Char) : Option Cursor :=
  if c.startsWith text then
    some ⟨c.position.forward (byteLength text), c.rest.drop text.length⟩
  else none

theorem advanceOver_eq_forward {text : List Char} (inline : text.all isInlineAscii)
    (p : Position) : p.advanceOver text = p.forward (byteLength text) := by
  induction text generalizing p with
  | nil => rfl
  | cons ch text ih =>
    simp only [List.all_cons, Bool.and_eq_true, isInlineAscii, isAscii, decide_eq_true_eq,
      bne_iff_ne] at inline
    obtain ⟨⟨hascii, hline⟩, htext⟩ := inline
    have hsize : ch.utf8Size = 1 := by
      rw [Char.utf8Size_eq_one_iff, UInt32.le_iff_toNat_le]
      exact Nat.le_of_lt_succ hascii
    rw [Position.advanceOver_cons, ih (by simpa [isInlineAscii, isAscii] using htext)]
    simp [Position.advance, Position.forward, hline, hsize, Nat.add_assoc]

theorem consumes_eat {c d : Cursor} {text : List Char} (inline : text.all isInlineAscii)
    (h : c.eat text = some d) : c.Consumes text d := by
  unfold eat startsWith at h
  split at h
  · next hp =>
    cases h
    obtain ⟨t, ht⟩ := List.isPrefixOf_iff_prefix.1 hp
    exact ⟨by rw [← ht]; simp, (advanceOver_eq_forward inline _).symm⟩
  · cases h

/-! ## Reading a run of characters -/

def eatWhileFrom (p : Char → Bool) : Position → List Char → Cursor
  | pos, [] => ⟨pos, []⟩
  | pos, ch :: rest =>
    if p ch then eatWhileFrom p (pos.advance ch) rest else ⟨pos, ch :: rest⟩

/-- The cursor after the characters ahead that satisfy `p`. -/
def eatWhile (p : Char → Bool) (c : Cursor) : Cursor := eatWhileFrom p c.position c.rest

theorem eatWhileFrom_eq (p : Char → Bool) (pos : Position) (text : List Char) :
    eatWhileFrom p pos text = ⟨pos.advanceOver (text.takeWhile p), text.dropWhile p⟩ := by
  induction text generalizing pos with
  | nil => rfl
  | cons ch rest ih => by_cases h : p ch <;> simp [eatWhileFrom, h, ih]

/-- What a run reads is the longest beginning that satisfies `p`. -/
theorem consumes_eatWhile (p : Char → Bool) (c : Cursor) :
    c.Consumes (c.rest.takeWhile p) (c.eatWhile p) := by
  simp [eatWhile, eatWhileFrom_eq, Consumes, List.takeWhile_append_dropWhile]

theorem reaches_eatWhile (p : Char → Bool) (c : Cursor) : c.Reaches (c.eatWhile p) :=
  ⟨_, c.consumes_eatWhile p⟩

/-- The cursor after the blanks ahead. -/
def skipBlank (c : Cursor) : Cursor := c.eatWhile isBlank

/-- The cursor after the spaces and tabs ahead. -/
def skipHorizontal (c : Cursor) : Cursor := c.eatWhile isHorizontalBlank

/-- The cursor at the end of the line, in front of its line feed. -/
def toLineEnd (c : Cursor) : Cursor := c.eatWhile (· != '\n')

/-- To read on while `p` holds keeps a cursor later. -/
def Later.eatWhile {c : Cursor} (p : Char → Bool) (l : c.Later) : c.Later :=
  l.move (l.cursor.eatWhile p) (l.cursor.reaches_eatWhile p)

/-- To move over one more character keeps a cursor later. -/
def Later.advance {c : Cursor} (l : c.Later) : c.Later :=
  l.move l.cursor.advance l.cursor.reaches_advance

/-! ## Searching -/

def findFrom (needle : List Char) : Position → List Char → Option Cursor
  | pos, [] => if needle.isEmpty then some ⟨pos, []⟩ else none
  | pos, ch :: rest =>
    if needle.isPrefixOf (ch :: rest) then some ⟨pos, ch :: rest⟩
    else findFrom needle (pos.advance ch) rest

/-- The cursor at the first occurrence of `needle` ahead. -/
def find (needle : List Char) (c : Cursor) : Option Cursor := findFrom needle c.position c.rest

theorem findFrom_reaches {needle : List Char} {pos : Position} {text : List Char}
    {d : Cursor} (h : findFrom needle pos text = some d) :
    (⟨pos, text⟩ : Cursor).Reaches d := by
  induction text generalizing pos with
  | nil =>
    simp only [findFrom] at h
    split at h
    · cases h
      exact Reaches.refl _
    · cases h
  | cons ch rest ih =>
    simp only [findFrom] at h
    split at h
    · cases h
      exact Reaches.refl _
    · exact Reaches.trans ⟨[ch], rfl, rfl⟩ (ih h)

theorem reaches_find {needle : List Char} {c d : Cursor} (h : c.find needle = some d) :
    c.Reaches d := findFrom_reaches h

/-! ## The text between two cursors -/

/-- The text from `c` to a cursor that it reaches. -/
def textTo (c d : Cursor) : List Char := takeBytes (d.offset - c.offset) c.rest

theorem Consumes.textTo_eq {c d : Cursor} {text : List Char} (h : c.Consumes text d) :
    c.textTo d = text := by
  have hlen : d.offset - c.offset = byteLength text := by
    simp [offset, h.2]
  simp [textTo, takeBytes, hlen, h.1]

/-- The stretches into which `cuts` divide the text ahead: from the cursor to
the first cut, from each cut to the next, and from the last one to the end. -/
def stretches (c : Cursor) (cuts : List Cursor) : List (Cursor × Cursor) :=
  List.zipWith Prod.mk (c :: cuts) (cuts ++ [c.toEnd])

end Cursor

end Polyglot
