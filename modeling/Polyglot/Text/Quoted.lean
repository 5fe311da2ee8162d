-- SUMMARY: Quoted text: a text on one line, between quotes, with everything unseen escaped.
import Polyglot.Text.Class
import Polyglot.Text.Visible

/-!
# Quoted text

A preview shows the beginning of a text between quotes. Quotes, backslashes,
controls and every character that would not be seen by itself are escaped, so a
preview stays on its line and can be read back.
-/

namespace Polyglot

/-- The digits of a number in base 16, in small letters. -/
def hexDigits (n : Nat) : List Char := Nat.toDigits 16 n

namespace Quoted

/-- A character is shown as it is: it is no control, has a glyph and stands alone. -/
def isPlain (c : Char) : Bool := !(isControl c || isInvisible c || isExtendingMark c)

/-- The form of a character between quotes. -/
def escape (c : Char) : List Char :=
  match c with
  | '"' => ['\\', '"']
  | '\\' => ['\\', '\\']
  | '\n' => ['\\', 'n']
  | '\r' => ['\\', 'r']
  | '\t' => ['\\', 't']
  | '\x00' => ['\\', '0']
  | _ => if isPlain c then [c] else ['\\', 'u', '{'] ++ hexDigits c.toNat ++ ['}']

/-- A text between quotes. -/
def quote (text : List Char) : List Char := '"' :: text.flatMap escape ++ ['"']

/-- The first `limit` characters of a text between quotes, and three dots if
there are more. -/
def preview (limit : Nat) (text : List Char) : String :=
  let dots := if (text.drop limit).isEmpty then [] else ['.', '.', '.']
  String.ofList (quote (text.take limit) ++ dots)

end Quoted

end Polyglot
