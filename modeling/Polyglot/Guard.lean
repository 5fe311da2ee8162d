-- SUMMARY: Guarded regions: the strings and comments of each sub-language, skipped as a whole.
import Polyglot.Text.Cursor

/-!
# Guarded regions

Braces, quotes and keywords inside a string or a comment mean nothing to the
structure of a document. Which regions are guarded depends on the
sub-language, given by a `GuardSet`. `Cursor.front` says what lies ahead of a
cursor: the end, a whole region, a region that never ends, or one character of
code. Every walk over a document is a recursion on it.
-/

namespace Polyglot

/-! ## Guard sets -/

/-- The guarded regions of one sub-language. -/
structure GuardSet where
  /-- Characters that open and close a string. -/
  quotes : List Char
  /-- From two slashes to the end of the line. -/
  lineComments : Bool
  /-- From slash and star to star and slash. -/
  blockComments : Bool
  /-- From two hyphens that a blank or the end of the text follows, to the end of the line. -/
  generatorComments : Bool
  deriving DecidableEq

namespace GuardSet

/-- Text of the template language. -/
def template : GuardSet := ⟨['"', '\''], true, true, true⟩

/-- Style sheets. Two slashes are no comment there; they appear in addresses. -/
def style : GuardSet := ⟨['"', '\''], false, true, false⟩

/-- Scripts, plain or extended. -/
def script : GuardSet := ⟨['"', '\'', '`'], true, true, false⟩

/-- Raw passages: nothing is guarded. -/
def raw : GuardSet := ⟨[], false, false, false⟩

/-- The same set with generator comments switched on or off. -/
def withGeneratorComments (set : GuardSet) (enabled : Bool) : GuardSet :=
  { set with generatorComments := enabled }

end GuardSet

/-- The kinds of guarded region. -/
inductive GuardKind where
  | string
  | lineComment
  | blockComment
  | generatorComment
  deriving DecidableEq

/-- The kind of region that begins a text, if one does. -/
def GuardSet.kindAt (set : GuardSet) : List Char → Option GuardKind
  | [] => none
  | c :: rest =>
    if set.quotes.contains c then some .string
    else match c, rest with
      | '/', '/' :: _ => if set.lineComments then some .lineComment else none
      | '/', '*' :: _ => if set.blockComments then some .blockComment else none
      | '-', '-' :: after =>
        if set.generatorComments && after.head?.all isBlank then some .generatorComment else none
      | _, _ => none

/-! ## Regions that never end -/

/-- The kinds of region that can run to the end of the text without being closed. -/
inductive OpenRegion where
  /-- A string whose closing quote is missing, with the byte that opened it. -/
  | string (quote : UInt8)
  | blockComment
  deriving DecidableEq

/-- The wording of an unclosed region. The opening byte is shown as the
character with its number. -/
def OpenRegion.describe : OpenRegion → String
  | .string quote =>
    "unterminated string (opened with " ++ String.singleton (Char.ofNat quote.toNat) ++ ")"
  | .blockComment => "unterminated block comment"

/-- A region that runs to the end of the text, and where it began. -/
structure GuardIssue where
  region : OpenRegion
  start : Position
  deriving DecidableEq

namespace Cursor

/-! ## Strings -/

/-- The cursor after the closing quote, reading from inside a string. A
backslash takes the character after it along. -/
def stringEnd (quote : UInt8) : Position → List Char → Option Cursor
  | _, [] => none
  | pos, ch :: rest =>
    if firstByte ch = quote then some ⟨pos.advance ch, rest⟩
    else if ch = '\\' then
      match rest with
      | [] => none
      | escaped :: rest => stringEnd quote ((pos.advance ch).advance escaped) rest
    else stringEnd quote (pos.advance ch) rest

theorem stringEnd_reaches {quote : UInt8} {pos : Position} {text : List Char}
    {d : Cursor} (h : stringEnd quote pos text = some d) : (⟨pos, text⟩ : Cursor).Reaches d := by
  fun_induction stringEnd quote pos text with
  | case1 => cases h
  | case2 pos ch rest hq =>
    cases h
    exact ⟨[ch], rfl, rfl⟩
  | case3 => cases h
  | case4 pos escaped rest hq ih => exact Reaches.trans ⟨['\\', escaped], rfl, rfl⟩ (ih h)
  | case5 pos ch rest hq hb ih => exact Reaches.trans ⟨[ch], rfl, rfl⟩ (ih h)

/-- Skip a string. The character ahead is taken as its quote, whatever it is:
the string ends at the next character that has the same first byte. At the end
of the text that byte is zero. -/
def skipString (c : Cursor) : Except GuardIssue c.Later :=
  let issue := ⟨.string (byteAt 0 c.rest), c.position⟩
  match h : c.rest with
  | [] => .error issue
  | quote :: rest =>
    match hd : stringEnd (firstByte quote) (c.position.advance quote) rest with
    | none => .error issue
    | some d => .ok ((c.next quote rest h).move d (stringEnd_reaches hd))

/-! ## Comments -/

/-- The cursor after a block comment, from the cursor after its first character. -/
def blockCommentEnd {c : Cursor} (slash : c.Later) : Option c.Later :=
  match h : slash.advance.cursor.find ['*', '/'] with
  | none => none
  | some d => some (slash.advance.move d (reaches_find h)).advance.advance

/-! ## What lies ahead -/

/-- What lies ahead of a cursor. -/
inductive Front (c : Cursor) where
  /-- The end of the text. -/
  | finish
  /-- A complete guarded region. -/
  | region (kind : GuardKind) (after : c.Later)
  /-- A guarded region that runs to the end of the text. -/
  | openRegion (issue : GuardIssue) (atEnd : c.Later)
  /-- One character outside any region. -/
  | code (char : Char) (after : c.Later)

/-- What lies ahead of a cursor under a guard set. -/
def front (set : GuardSet) (c : Cursor) : c.Front :=
  match h : c.rest with
  | [] => .finish
  | ch :: rest =>
    match set.kindAt (ch :: rest) with
    | none => .code ch (c.next ch rest h)
    | some .string =>
      match c.skipString with
      | .ok after => .region .string after
      | .error issue => .openRegion issue (c.next ch rest h).toEnd
    | some .blockComment =>
      match blockCommentEnd (c.next ch rest h) with
      | some after => .region .blockComment after
      | none => .openRegion ⟨.blockComment, c.position⟩ (c.next ch rest h).toEnd
    | some kind => .region kind ((c.next ch rest h).eatWhile (· != '\n'))

/-- The text is at its end exactly if nothing is left. -/
theorem front_eq_finish_iff {set : GuardSet} {c : Cursor} :
    c.front set = .finish ↔ c.rest = [] := by
  unfold front
  constructor
  · intro h
    split at h
    · assumption
    · split at h
      · cases h
      · split at h <;> cases h
      · split at h <;> cases h
      · cases h
  · intro h
    split
    · rfl
    · next hc => simp [h] at hc

/-- A character of code is the first one ahead, and the cursor moves over it alone. -/
theorem front_code {set : GuardSet} {c : Cursor} {ch : Char} {after : c.Later}
    (h : c.front set = .code ch after) :
    c.rest = ch :: after.cursor.rest ∧ after.cursor.position = c.position.advance ch := by
  unfold front at h
  split at h
  · cases h
  · next ch' rest hr =>
    split at h
    · cases h
      exact ⟨hr, rfl⟩
    · split at h <;> cases h
    · split at h <;> cases h
    · cases h

/-! ## Skipping -/

/-- What skipping found. -/
inductive Guard where
  /-- No region begins here. -/
  | clear
  /-- A whole region was skipped. -/
  | skipped (kind : GuardKind)
  /-- A region runs to the end of the text. -/
  | unterminated (issue : GuardIssue)
  deriving DecidableEq

/-- Skip the guarded region ahead, if there is one. An unterminated region is
skipped to the end of the text. -/
def skipGuarded (set : GuardSet) (c : Cursor) : Guard × Cursor :=
  match c.front set with
  | .region kind after => (.skipped kind, after.cursor)
  | .openRegion issue atEnd => (.unterminated issue, atEnd.cursor)
  | .finish | .code _ _ => (.clear, c)

/-- Skip the comment ahead, if there is one. Strings stay. -/
def skipComment (set : GuardSet) (c : Cursor) : Guard × Cursor :=
  match set.kindAt c.rest with
  | none | some .string => (.clear, c)
  | some _ => c.skipGuarded set

end Cursor

end Polyglot
