-- SUMMARY: Values written without quotes: bodies of text blocks and values of properties.
import Polyglot.Fragment

/-!
# Values without quotes

A text block may hold its text bare, and a property its value. Such values are
noted with their offsets. A property is a name, a separator and a value that
runs to a semicolon, a closing brace or the end of the line; what turns out to
open a block or holds a quote is no value.
-/

namespace Polyglot

/-- The body of a text block, unless it begins with a quote or is blank. -/
def textLiteral (c : Cursor) : Option Literal :=
  let text := trimStart c.rest
  let lead := byteLength c.rest - byteLength text
  match trimEnd text with
  | [] => none
  | ch :: body => if ch = '"' || ch = '\'' then none else some ⟨c.offset + lead, ch :: body⟩

namespace Cursor

/-- What ends the value of a property or shows that it is none. -/
def isValueStop (c : Char) : Bool := [';', '}', '\n', '\r', '{', '"', '\''].contains c

/-- The value between two cursors, unless it is blank, opens a block or holds a quote. -/
def propertyValue (c d : Cursor) : Option Literal :=
  let value := trimEnd (c.textTo d)
  if d.rest.head?.any ['{', '"', '\''].contains || value.isEmpty then none
  else some ⟨c.offset, value⟩

/-- The characters that continue the name of a property. -/
def isPropertyNamePart (c : Char) : Bool := isNamePart c || c = '-'

/-- Read a property whose name begins with the character before `after`: its
value, if it has one, and the cursor where it ends. -/
def property {c : Cursor} (separators : List Char) (after : c.Later) :
    Option Literal × c.Later :=
  let gap := (after.eatWhile isPropertyNamePart).eatWhile isHorizontalBlank
  if gap.cursor.rest.head?.any separators.contains then
    let first := gap.advance.eatWhile isHorizontalBlank
    let last := first.eatWhile (!isValueStop ·)
    (propertyValue first.cursor last.cursor, last)
  else (none, gap)

/-- The property values from a cursor on. `found` holds the earlier ones, last
one first; `fresh` says that a property may begin here. -/
def valuesFrom (separators : List Char) (set : GuardSet) (fresh : Bool)
    (found : List Literal) (c : Cursor) : List Literal :=
  match c.front set with
  | .finish | .openRegion _ _ => found
  | .region _ after => valuesFrom separators set false found after.cursor
  | .code ch after =>
    if isAsciiSpace ch then valuesFrom separators set fresh found after.cursor
    else if fresh && isNameStart ch then
      let p := property separators after
      valuesFrom separators set false (p.1.toList ++ found) p.2.cursor
    else valuesFrom separators set (ch = ';' || ch = '{' || ch = '}') found after.cursor
termination_by c.rest.length
decreasing_by all_goals exact Cursor.Later.length_lt _

/-- The values of the properties ahead that are written without quotes. -/
def propertyLiterals (separators : List Char) (set : GuardSet) (c : Cursor) : List Literal :=
  (valuesFrom separators set true [] c).reverse

end Cursor

end Polyglot
