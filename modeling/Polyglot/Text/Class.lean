-- SUMMARY: The classes of characters that the walkers of a document test for.

/-!
# Character classes

Blanks, spaces, words and names. All classes but `isUnicodeSpace` hold ASCII
characters only, so a run of one of them never reaches into a longer character.
-/

namespace Polyglot

/-! ## White space -/

/-- Space or tab: a blank that stays on its line. -/
def isHorizontalBlank (c : Char) : Bool := c == ' ' || c == '\t'

/-- Space, tab, carriage return or line feed. -/
def isBlank (c : Char) : Bool := isHorizontalBlank c || c == '\r' || c == '\n'

/-- A blank or a form feed. -/
def isAsciiSpace (c : Char) : Bool := isBlank c || c == '\x0c'

/-- The Unicode property `White_Space`. -/
def isUnicodeSpace (c : Char) : Bool :=
  let n := c.toNat
  (0x9 ≤ n && n ≤ 0xD) || n == 0x20 || n == 0x85 || n == 0xA0 || n == 0x1680 ||
    (0x2000 ≤ n && n ≤ 0x200A) || n == 0x2028 || n == 0x2029 || n == 0x202F ||
    n == 0x205F || n == 0x3000

theorem isUnicodeSpace_of_isAsciiSpace {c : Char} (h : isAsciiSpace c) : isUnicodeSpace c := by
  simp only [isAsciiSpace, isBlank, isHorizontalBlank, Bool.or_eq_true, beq_iff_eq] at h
  rcases h with (((rfl | rfl) | rfl) | rfl) | rfl <;> decide

/-! ## Controls -/

/-- The control characters of ASCII and of its extension to one byte. -/
def isControl (c : Char) : Bool := c.toNat < 0x20 || (0x7F ≤ c.toNat && c.toNat < 0xA0)

/-! ## Words and names -/

/-- One of the 128 ASCII characters. -/
def isAscii (c : Char) : Bool := c.toNat < 0x80

/-- An ASCII character that does not end the line. -/
def isInlineAscii (c : Char) : Bool := isAscii c && c != '\n'

/-- A letter or underscore: starts a word of the template language. -/
def isWordStart (c : Char) : Bool := c.isAlpha || c == '_'

/-- A letter, digit, underscore or hyphen: continues a word of the template language. -/
def isWordPart (c : Char) : Bool := c.isAlphanum || c == '_' || c == '-'

/-- A letter, underscore or dollar sign: starts a name in a script. -/
def isNameStart (c : Char) : Bool := c.isAlpha || c == '_' || c == '$'

/-- A letter, digit, underscore or dollar sign: continues a name in a script. -/
def isNamePart (c : Char) : Bool := c.isAlphanum || c == '_' || c == '$'

theorem isAscii_of_isNamePart {ch : Char} (h : isNamePart ch) : isAscii ch := by
  simp only [isNamePart, Bool.or_eq_true, beq_iff_eq] at h
  rcases h with (h | rfl) | rfl
  · have hclasses : ch.isAlphanum = (decide ('A'.val ≤ ch.val ∧ ch.val ≤ 'Z'.val) ||
        decide ('a'.val ≤ ch.val) && decide (ch.val ≤ 'z'.val) ||
        decide ('0'.val ≤ ch.val) && decide (ch.val ≤ '9'.val)) := rfl
    simp only [hclasses, Bool.or_eq_true, Bool.and_eq_true, decide_eq_true_eq,
      UInt32.le_iff_toNat_le] at h
    have hupper : 'Z'.val.toNat = 90 := rfl
    have hlower : 'z'.val.toNat = 122 := rfl
    have hdigit : '9'.val.toNat = 57 := rfl
    have hvalue : ch.val.toNat < 0x80 := by omega
    exact decide_eq_true hvalue
  · decide
  · decide

end Polyglot
