-- SUMMARY: However a cursor moves, it stands between two characters, where the text it read ends.
import Mathlib.Data.List.DropRight
import Polyglot.ByteCursor
import Polyglot.Proofs.Operation
import Polyglot.Proofs.Region
import Polyglot.Text.Passage

/-!
# Moves of a cursor

A position can be brought up to date byte by byte, character by character, by the length of
a line of ASCII text, or by what a jump leaves behind: its line feeds, and the characters
after the last of them. All of these give the position where the text that was read ends
(`Position.foldl_bump`, `Position.leap_eq`). So after any moves a cursor is where its text
says, and two ways to one place do not differ (`Passage.isWalk_run`).
-/

namespace Polyglot

/-! ## Positions by bytes -/

/-- How many characters begin among some bytes. -/
def countChars (bytes : List UInt8) : Nat := bytes.countP fun byte => !isInnerByte byte

theorem isInnerByte_iff {byte : UInt8} :
    isInnerByte byte ↔ 0x80 ≤ byte.toNat ∧ byte.toNat < 0xC0 := by
  simp [isInnerByte, UInt8.le_iff_toNat_le, UInt8.lt_iff_toNat_lt]

theorem countChars_concat (bytes : List UInt8) (byte : UInt8) :
    countChars (bytes ++ [byte]) = countChars bytes + if isInnerByte byte then 0 else 1 := by
  cases hbyte : isInnerByte byte <;> simp [countChars, hbyte]

namespace Position

/-- The position after some bytes that are passed over as a whole. The column is counted
from the last line feed among them, if there is one. -/
def leap (p : Position) (bytes : List UInt8) : Position where
  offset := p.offset + bytes.length
  line := p.line + bytes.count 0x0A
  column :=
    if 0x0A ∈ bytes then 1 + countChars (bytes.rtakeWhile (· != 0x0A))
    else p.column + countChars bytes

theorem leap_concat (p : Position) (bytes : List UInt8) (byte : UInt8) :
    p.leap (bytes ++ [byte]) = (p.leap bytes).bump byte := by
  by_cases hline : byte = 0x0A
  · subst hline
    simp [leap, bump, countChars, Nat.add_assoc]
  · have hmem : 0x0A ∈ bytes ++ [byte] ↔ 0x0A ∈ bytes := by simp [Ne.symm hline]
    have hlast : (bytes ++ [byte]).rtakeWhile (· != 0x0A) =
        bytes.rtakeWhile (· != 0x0A) ++ [byte] :=
      List.rtakeWhile_concat_pos _ _ _ (by simpa using hline)
    have hcount : (bytes ++ [byte]).count 0x0A = bytes.count 0x0A := by simp [hline]
    simp only [leap, bump, if_neg hline, hmem, hlast, hcount, countChars_concat]
    cases isInnerByte byte with
    | true => simp [Nat.add_assoc]
    | false => split <;> simp [forward, Nat.add_assoc]

/-- To leap over bytes is to read one after the other. -/
theorem leap_eq_foldl (p : Position) (bytes : List UInt8) : p.leap bytes = bytes.foldl bump p := by
  induction bytes using List.reverseRecOn with
  | nil => rfl
  | append_singleton bytes byte ih =>
    rw [leap_concat, ih, List.foldl_append, List.foldl_cons, List.foldl_nil]

end Position

/-- A byte of a longer character: the first one from `0xC0` on, or one that goes on. -/
theorem isInnerByte_ofNat (n : Nat) : isInnerByte (UInt8.ofNat (n % 64 + 128)) := by
  rw [isInnerByte_iff, UInt8.toNat_ofNat']
  omega

theorem not_isInnerByte_ofNat {n : Nat} (h : n < 0x80 ∨ (0xC0 ≤ n ∧ n < 0x100)) :
    isInnerByte (UInt8.ofNat n) = false := by
  rw [← Bool.not_eq_true, isInnerByte_iff, UInt8.toNat_ofNat']
  omega

theorem ofNat_eq_lineFeed_iff {n : Nat} (h : n < 0x100) : UInt8.ofNat n = 0x0A ↔ n = 10 := by
  rw [← UInt8.toNat_inj, UInt8.toNat_ofNat']
  change n % 2 ^ 8 = 10 ↔ n = 10
  omega

/-- A character is one byte that begins it, and some that go on. -/
theorem utf8EncodeChar_eq (ch : Char) : ∃ byte more,
    String.utf8EncodeChar ch = byte :: more ∧ isInnerByte byte = false ∧
      (byte = 0x0A ↔ ch = '\n') ∧ ∀ b ∈ more, isInnerByte b := by
  have hline : ch = '\n' ↔ ch.val.toNat = 10 := Char.toNat_inj.symm
  rw [hline]
  unfold String.utf8EncodeChar
  simp only
  generalize ch.val.toNat = v
  have hlong : ∀ {n}, ¬ v ≤ 127 → 0xC0 ≤ n → n < 0x100 →
      (UInt8.ofNat n = 0x0A ↔ v = 10) := by
    intro n hv hle hlt
    rw [ofNat_eq_lineFeed_iff hlt]
    omega
  split
  · exact ⟨_, [], rfl, not_isInnerByte_ofNat (.inl (by omega)),
      ofNat_eq_lineFeed_iff (by omega), List.forall_mem_nil _⟩
  · next hv =>
    split
    · refine ⟨_, _, rfl, not_isInnerByte_ofNat (.inr (by omega)),
        hlong hv (by omega) (by omega), ?_⟩
      exact List.forall_mem_singleton.2 (isInnerByte_ofNat _)
    · split
      · refine ⟨_, _, rfl, not_isInnerByte_ofNat (.inr (by omega)),
          hlong hv (by omega) (by omega), List.forall_mem_cons.2 ⟨isInnerByte_ofNat _, ?_⟩⟩
        exact List.forall_mem_singleton.2 (isInnerByte_ofNat _)
      · refine ⟨_, _, rfl, not_isInnerByte_ofNat (.inr (by omega)),
          hlong hv (by omega) (by omega), List.forall_mem_cons.2 ⟨isInnerByte_ofNat _,
            List.forall_mem_cons.2 ⟨isInnerByte_ofNat _, ?_⟩⟩⟩
        exact List.forall_mem_singleton.2 (isInnerByte_ofNat _)

namespace Position

/-- The bytes of one character move a position as the character does. -/
theorem foldl_bump_char (p : Position) (ch : Char) :
    (String.utf8EncodeChar ch).foldl bump p = p.advance ch := by
  have hmore : ∀ (more : List UInt8) (q : Position), (∀ b ∈ more, isInnerByte b) →
      more.foldl bump q = { q with offset := q.offset + more.length } := by
    intro more
    induction more with
    | nil => exact fun q _ => rfl
    | cons b more ih =>
      intro q h
      obtain ⟨hb, hmore⟩ := List.forall_mem_cons.1 h
      have hline : b ≠ 0x0A := by
        rintro rfl
        exact absurd hb (by decide)
      rw [List.foldl_cons, ih _ hmore]
      simp [bump, hline, hb, Nat.add_assoc, Nat.add_comm 1]
  obtain ⟨byte, more, henc, hbyte, hline, hinner⟩ := utf8EncodeChar_eq ch
  have hsize : more.length + 1 = ch.utf8Size := by
    rw [← String.length_utf8EncodeChar, henc, List.length_cons]
  rw [henc, List.foldl_cons, hmore _ _ hinner]
  simp only [bump, advance, hline, hbyte, ← hsize]
  split <;> simp [forward, Nat.add_assoc, Nat.add_comm 1]

/-- A position can be brought up to date byte by byte. -/
theorem foldl_bump (p : Position) (text : List Char) :
    (utf8Bytes text).foldl bump p = p.advanceOver text := by
  induction text generalizing p with
  | nil => rfl
  | cons ch text ih =>
    rw [utf8Bytes, List.flatMap_cons, List.foldl_append, foldl_bump_char, advanceOver_cons, ← ih,
      utf8Bytes]

/-- A position can be brought up to date by one leap over a text. -/
theorem leap_eq (p : Position) (text : List Char) :
    p.leap (utf8Bytes text) = p.advanceOver text := by
  rw [leap_eq_foldl, foldl_bump]

end Position

/-! ## Moves -/

/-- An operation that moves a cursor. -/
inductive Move where
  /-- Over one character. -/
  | advance
  /-- Over a text, if it lies ahead. -/
  | eat (text : List Char)
  /-- Over ASCII characters of a class. -/
  | eatWhile (p : Char → Bool)
  | skipBlank
  | skipHorizontal
  /-- To an offset, or to the end of the text if that comes first. -/
  | jumpTo (target : Nat)
  | toLineEnd
  | skipGuarded (set : GuardSet)
  | skipComment (set : GuardSet)
  | skipString

/-- Where a move leads. -/
def Move.apply (b : ByteCursor) : Move → ByteCursor
  | .advance => b.advance
  | .eat text => (b.eat text).getD b
  | .eatWhile p => b.move (·.eatWhile fun ch => isAscii ch && p ch)
  | .skipBlank => b.move Cursor.skipBlank
  | .skipHorizontal => b.move Cursor.skipHorizontal
  | .jumpTo target => b.jumpTo target
  | .toLineEnd => b.toLineEnd
  | .skipGuarded set => (b.skipGuarded set).2
  | .skipComment set => (b.skipComment set).2
  | .skipString => b.skipString.2

namespace Passage

variable {p : Passage}

/-- No character lies across the offset. Offsets outside of the passage count as its ends. -/
def IsBoundary (p : Passage) (target : Nat) : Prop :=
  target ≤ p.origin.offset ∨ p.endOffset ≤ target ∨
    ∃ before behind, p.text = before ++ behind ∧ target = p.origin.offset + byteLength before

/-- The move keeps to its contract: a text to eat is ASCII of one line, and the target of a
jump divides no character. -/
def Admits (p : Passage) : Move → Prop
  | .eat text => text.all isInlineAscii
  | .jumpTo target => p.IsBoundary target
  | _ => True

/-- Make some moves, one after the other, from the start of the passage on. -/
def run (p : Passage) (moves : List Move) : ByteCursor :=
  moves.foldl Move.apply (.ofCursor p.cursor)

end Passage

/-! ### One move -/

namespace Cursor

theorem reaches_skipGuarded (set : GuardSet) (c : Cursor) : c.Reaches (c.skipGuarded set).2 := by
  unfold skipGuarded
  cases c.front set with
  | finish => exact .refl c
  | region kind after => exact after.reaches
  | openRegion issue atEnd => exact atEnd.reaches
  | code ch after => exact .refl c

theorem reaches_skipComment (set : GuardSet) (c : Cursor) : c.Reaches (c.skipComment set).2 := by
  unfold skipComment
  split
  · exact .refl c
  · exact .refl c
  · exact c.reaches_skipGuarded set

end Cursor

namespace ByteCursor

variable {c : Cursor} {target : Nat}

/-- A jump back stays. -/
theorem jumpTo_of_le (h : target ≤ c.offset) : (ofCursor c).jumpTo target = ofCursor c := by
  have hstay := jumpTo_of_consumes (Cursor.Consumes.refl c)
  rwa [jumpTo, show c.offset - (ofCursor c).offset = target - (ofCursor c).offset by
    change c.offset - c.offset = target - c.offset
    omega] at hstay

/-- A jump beyond the text ends with the text. -/
theorem jumpTo_of_endOffset_le (h : c.endOffset ≤ target) :
    (ofCursor c).jumpTo target = ofCursor c.toEnd := by
  have hall : takeBytes (target - c.offset) c.rest = c.rest := by
    refine takeBytes_of_le ?_
    rw [Cursor.endOffset] at h
    omega
  have hsplit : splitBytes (target - c.offset) c.rest = (c.rest, []) := by
    have happend := splitBytes_append (target - c.offset) c.rest
    rw [← takeBytes, hall] at happend
    exact Prod.ext hall (List.append_right_eq_self.1 happend)
  change within (target - c.offset) c = ofCursor c.toEnd
  rw [within, hsplit]
  rfl

theorem reaches_skipString (c : Cursor) :
    ∃ d, (ofCursor c).skipString.2 = ofCursor d ∧ c.Reaches d := by
  unfold skipString
  split
  · split
    · next after _ => exact ⟨after.cursor, rfl, after.reaches⟩
    · exact ⟨c.toEnd, rfl, c.reaches_toEnd⟩
  · next hleft => cases hleft

end ByteCursor

namespace Passage

variable {p : Passage} {c : Cursor}

theorem endOffset_eq (h : p.cursor.Reaches c) : c.endOffset = p.endOffset := by
  obtain ⟨u, hrest, hpos⟩ := h
  have htext : p.text = u ++ c.rest := hrest
  rw [Cursor.endOffset, Cursor.offset, hpos, Position.advanceOver_offset, endOffset, htext,
    byteLength_append]
  exact Nat.add_assoc _ _ _

theorem reaches_jumpTo (h : p.cursor.Reaches c) {target : Nat} (hb : p.IsBoundary target) :
    ∃ d, (ByteCursor.ofCursor c).jumpTo target = .ofCursor d ∧ c.Reaches d := by
  rcases hb with hstart | hend | ⟨u, v, htext, rfl⟩
  · exact ⟨c, ByteCursor.jumpTo_of_le (hstart.trans h.offset_le), .refl c⟩
  · rw [← endOffset_eq h] at hend
    exact ⟨c.toEnd, ByteCursor.jumpTo_of_endOffset_le hend, c.reaches_toEnd⟩
  · obtain ⟨w, hrest, hpos⟩ := h
    have hoffset : c.offset = p.origin.offset + byteLength w := by
      rw [Cursor.offset, hpos, Position.advanceOver_offset, cursor]
    have hsame : w ++ c.rest = u ++ v := hrest.symm.trans htext
    rcases List.append_eq_append_iff.1 hsame with ⟨s, rfl, hs⟩ | ⟨s, rfl, -⟩
    · -- the target lies ahead
      let d : Cursor := ⟨c.position.advanceOver s, v⟩
      have hread : c.Consumes s d := ⟨hs, rfl⟩
      have htarget : d.offset = p.origin.offset + byteLength (w ++ s) := by
        rw [Cursor.offset, Position.advanceOver_offset, byteLength_append, ← Nat.add_assoc,
          ← hoffset]
      rw [← htarget]
      exact ⟨d, ByteCursor.jumpTo_of_consumes hread, s, hread⟩
    · refine ⟨c, ByteCursor.jumpTo_of_le ?_, .refl c⟩
      rw [hoffset, byteLength_append]
      omega

/-- A move leads from a place between two characters to such a place, and not back. -/
theorem reaches_apply (h : p.cursor.Reaches c) {m : Move} (hm : p.Admits m) :
    ∃ d, m.apply (.ofCursor c) = .ofCursor d ∧ c.Reaches d := by
  cases m with
  | advance => exact ⟨_, rfl, c.reaches_advance⟩
  | eat text =>
    cases heat : c.eat text with
    | none => exact ⟨c, by simp [Move.apply, heat], .refl c⟩
    | some d => exact ⟨d, by simp [Move.apply, heat], _, Cursor.consumes_eat hm heat⟩
  | eatWhile q => exact ⟨_, rfl, c.reaches_eatWhile _⟩
  | skipBlank => exact ⟨_, rfl, c.reaches_eatWhile isBlank⟩
  | skipHorizontal => exact ⟨_, rfl, c.reaches_eatWhile isHorizontalBlank⟩
  | jumpTo target => exact reaches_jumpTo h hm
  | toLineEnd => exact ⟨_, rfl, c.reaches_eatWhile (· != '\n')⟩
  | skipGuarded set => exact ⟨_, rfl, c.reaches_skipGuarded set⟩
  | skipComment set => exact ⟨_, rfl, c.reaches_skipComment set⟩
  | skipString => exact ByteCursor.reaches_skipString c

/-! ### Many moves -/

theorem reaches_foldl (h : p.cursor.Reaches c) {moves : List Move} (hm : ∀ m ∈ moves, p.Admits m) :
    ∃ d, moves.foldl Move.apply (.ofCursor c) = .ofCursor d ∧ c.Reaches d := by
  induction moves generalizing c with
  | nil => exact ⟨c, rfl, .refl c⟩
  | cons m moves ih =>
    obtain ⟨hm, hmoves⟩ := List.forall_mem_cons.1 hm
    obtain ⟨d, hd, hcd⟩ := reaches_apply h hm
    obtain ⟨e, he, hde⟩ := ih (h.trans hcd) hmoves
    exact ⟨e, by rw [List.foldl_cons, hd, he], hcd.trans hde⟩

/-- From `b` a walk through the passage has gone on to `e`: `before` was read up to `b`, and
`between` from there on. -/
structure IsWalk (p : Passage) (before between : List Char) (b e : ByteCursor) : Prop where
  /-- Both stand between two characters. -/
  whole : b.left = [] ∧ e.left = []
  text : p.text = before ++ between ++ e.rest
  ahead : b.rest = between ++ e.rest
  /-- Neither is behind the end, and the later one is not behind the earlier one. -/
  bounds : p.origin.offset ≤ b.offset ∧ b.offset ≤ e.offset ∧ e.offset ≤ p.endOffset
  /-- Line and column are those that the bytes read one by one lead to. -/
  position : b.position = (utf8Bytes before).foldl Position.bump p.origin ∧
    e.position = (utf8Bytes (before ++ between)).foldl Position.bump p.origin
  /-- One leap leads there as well. -/
  leap : e.position = b.position.leap (utf8Bytes between)
  /-- The text between the two offsets is what was read. -/
  slice : p.slice b.offset e.offset = between

theorem isWalk_ofCursor {d : Cursor} {u w : List Char} (hu : p.cursor.Consumes u c)
    (hw : c.Consumes w d) : p.IsWalk u w (.ofCursor c) (.ofCursor d) := by
  have hread : p.cursor.Consumes (u ++ w) d := hu.trans hw
  have htext : p.text = u ++ w ++ d.rest := hread.1
  have hoffset : c.offset = p.origin.offset + byteLength u := by
    rw [Cursor.offset, hu.2, Position.advanceOver_offset, cursor]
  have hoffset' : d.offset = c.offset + byteLength w := by
    rw [Cursor.offset, hw.2, Position.advanceOver_offset]
  refine { whole := ⟨rfl, rfl⟩, text := htext, ahead := hw.1, bounds := ?_, position := ?_,
           leap := ?_, slice := ?_ }
  · refine ⟨Cursor.Reaches.offset_le ⟨u, hu⟩, Cursor.Reaches.offset_le ⟨w, hw⟩, ?_⟩
    rw [← endOffset_eq ⟨_, hread⟩]
    exact Nat.le_add_right _ _
  · rw [Position.foldl_bump, Position.foldl_bump]
    exact ⟨hu.2, hread.2⟩
  · rw [Position.leap_eq]
    exact hw.2
  · change p.slice c.offset d.offset = w
    have hslice := slice_append p.origin u w d.rest
    rwa [← htext, ← hoffset, ← hoffset'] at hslice

/-- However a cursor moves through a passage, it stands between two characters, at or after
where it was. Its position is the one that its text leads to, whether the text is read byte by
byte or passed over by one leap; and the slice between two of its places is what was read on
the way. So other moves that lead as far lead to the same line and column. -/
theorem isWalk_run (p : Passage) (before after other : List Move)
    (h : ∀ m ∈ before ++ after ++ other, p.Admits m) :
    (∃ u w, p.IsWalk u w (p.run before) (p.run (before ++ after))) ∧
    ((p.run other).offset = (p.run before).offset → p.run other = p.run before) := by
  simp only [List.forall_mem_append] at h
  obtain ⟨⟨hbefore, hafter⟩, hother⟩ := h
  obtain ⟨c, hc, hpc⟩ := reaches_foldl (.refl p.cursor) hbefore
  obtain ⟨d, hd, hcd⟩ := reaches_foldl hpc hafter
  obtain ⟨e, he, hpe⟩ := reaches_foldl (.refl p.cursor) hother
  have hboth : p.run (before ++ after) = .ofCursor d := by
    rw [run, List.foldl_append, hc, hd]
  rw [hboth, show p.run before = .ofCursor c from hc, show p.run other = .ofCursor e from he]
  refine ⟨?_, fun hoffset => congrArg _ (hpe.eq_of_offset_eq hpc hoffset)⟩
  obtain ⟨u, hu⟩ := hpc
  obtain ⟨w, hw⟩ := hcd
  exact ⟨u, w, isWalk_ofCursor hu hw⟩

/-- A walk over a string and three characters of a later part of a document leads to the same
line and column as one jump does. -/
theorem isWalk_run_jump :
    let p : Passage := ⟨⟨5, 2, 4⟩, "\"é\"ß\nü x".toList⟩
    let walk := [.skipGuarded .script, .advance, .advance, .advance]
    (∃ u w, p.IsWalk u w (p.run walk) (p.run (walk ++ [.skipBlank]))) ∧
      p.run [.jumpTo 14] = p.run walk ∧ (p.run walk).position = ⟨14, 3, 2⟩ := by
  intro p walk
  have hmoves : ∀ m ∈ walk ++ [.skipBlank] ++ [.jumpTo 14], p.Admits m := by
    simp only [walk, List.cons_append, List.nil_append, List.forall_mem_cons]
    exact ⟨trivial, trivial, trivial, trivial, trivial,
      .inr (.inr ⟨"\"é\"ß\nü".toList, " x".toList, rfl, rfl⟩), List.forall_mem_nil _⟩
  obtain ⟨hwalk, hjump⟩ := isWalk_run p walk [.skipBlank] [.jumpTo 14] hmoves
  have hposition : (p.run walk).position = ⟨14, 3, 2⟩ := by decide +kernel
  exact ⟨hwalk, hjump (by decide +kernel), hposition⟩

end Passage

end Polyglot
