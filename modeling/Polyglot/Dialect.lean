-- SUMMARY: The extended script dialect: its selectors, its markers and the bare literals in a script.
import Polyglot.Fragment

/-!
# The extended script dialect

A local script is read once, outside strings and comments, for the markers of
the extended dialect: selectors in double braces, arrows, calls of `listen`,
`delegate` and `animate`, and bindings with `vir`. Bare words in the place of a
property's value are noted along the way.
-/

namespace Polyglot

namespace Cursor

/-! ## Selectors -/

/-- The characters that continue a tag, class or identity name in a selector. -/
def isSelectorNamePart (c : Char) : Bool := isNamePart c || c = '-'

/-- The cursor after a name. -/
def selectorName? (c : Cursor) : Option c.Later :=
  match h : c.rest with
  | [] => none
  | ch :: rest =>
    if isNameStart ch then some ((c.next ch rest h).eatWhile isSelectorNamePart) else none

/-- The cursor after one part of a compound: a name, or a name behind a dot or hash. -/
def compoundPart? (c : Cursor) : Option c.Later :=
  match c.rest with
  | '.' :: _ | '#' :: _ => c.advance.selectorName?.map (·.since c.reaches_advance)
  | _ => c.selectorName?

/-- The cursor after the number in square brackets that may end a compound. -/
def selectorIndex? {c : Cursor} (l : c.Later) : Option c.Later :=
  match hd : l.cursor.eat ['['] with
  | none => some l
  | some d =>
    let digits := l.move d ⟨_, consumes_eat rfl hd⟩
    let past := digits.eatWhile Char.isDigit
    match he : past.cursor.eat [']'] with
    | some e =>
      if digits.cursor.rest.head?.any Char.isDigit then some (past.move e ⟨_, consumes_eat rfl he⟩)
      else none
    | none => none

/-- The cursor after a compound whose first part was read. -/
def compoundFrom {c : Cursor} (l : c.Later) : Option c.Later :=
  if l.cursor.rest.head?.any fun ch => ch = '.' || ch = '#' || isNameStart ch then
    match l.cursor.compoundPart? with
    | none => none
    | some part => compoundFrom (part.since l.reaches)
  else selectorIndex? l
termination_by l.cursor.rest.length
decreasing_by exact part.length_lt

/-- The cursor after a compound: one part or more, and possibly a number. A dot
or hash that no name follows makes no compound. -/
def compound? (c : Cursor) : Option c.Later := c.compoundPart?.bind compoundFrom

/-- The cursor after a chain of compounds with blanks between them, whose first
compound was read. -/
def chainFrom {c : Cursor} (l : c.Later) : Option c.Later :=
  if l.cursor.rest.head?.any isHorizontalBlank then
    let gap := l.eatWhile isHorizontalBlank
    if gap.cursor.startsWith ['}', '}'] then some gap
    else match gap.cursor.compound? with
      | none => none
      | some next => chainFrom (next.since gap.reaches)
  else some l
termination_by l.cursor.rest.length
decreasing_by
  have h : l.cursor.Reaches gap.cursor := l.cursor.reaches_eatWhile _
  exact (next.since h).length_lt

/-- The cursor after a selector in double braces: an ampersand, or a chain of
compounds, with blanks around it. -/
def enhancedSelector? (c : Cursor) : Option c.Later :=
  match h : c.eat ['{', '{'] with
  | none => none
  | some d =>
    have hd : c.Consumes ['{', '{'] d := consumes_eat rfl h
    let opened : c.Later := ⟨d, '{', ['{'], hd⟩
    let gap := opened.eatWhile isHorizontalBlank
    let inner :=
      match hg : gap.cursor.eat ['&'] with
      | some e => some (gap.move e ⟨_, consumes_eat rfl hg⟩)
      | none => gap.cursor.compound?.bind fun next => chainFrom (next.since gap.reaches)
    inner.bind fun l =>
      let l := l.eatWhile isHorizontalBlank
      match he : l.cursor.eat ['}', '}'] with
      | some e => some (l.move e ⟨_, consumes_eat rfl he⟩)
      | none => none

/-! ## What follows a word -/

/-- Blanks and an opening parenthesis lie ahead. -/
def callFollows (c : Cursor) : Bool := c.skipBlank.rest.head? = some '('

/-- At least one blank and the start of a name lie ahead. -/
def bindingFollows (c : Cursor) : Bool :=
  c.rest.head?.any isBlank && c.skipBlank.rest.head?.any isNameStart

/-- What lies ahead ends a value: a comma, a closing brace, a semicolon, a line
end or the end of the text. -/
def valueEnds (c : Cursor) : Bool :=
  c.skipHorizontal.rest.head?.all [',', '}', ';', '\n', '\r'].contains

end Cursor

/-! ## Reading a script -/

/-- The markers and bare literals of a script. -/
structure FeatureScan where
  features : Features
  literals : List Literal
  deriving DecidableEq

/-- The marker that a call of a word makes. -/
def Marker.ofCall? : String → Option Marker
  | "listen" => some .listenCall
  | "delegate" => some .delegateCall
  | "animate" => some .animateCall
  | _ => none

namespace FeatureScan

/-- What is known on the way through a script. -/
structure State where
  features : Features
  /-- The bare literals so far, last one first. -/
  literals : List Literal
  /-- Open braces. -/
  depth : Nat
  /-- A statement may begin here. -/
  statementStart : Bool
  /-- The last code was a colon. -/
  afterColon : Bool
  deriving DecidableEq

/-- Note a marker, if there is one. -/
def State.mark (s : State) : Option Marker → State
  | some m => { s with features := s.features.insert m }
  | none => s

/-- Note that code was read that begins no statement and is no colon. -/
def State.inside (s : State) : State := { s with statementStart := false, afterColon := false }

/-- Read a word that begins at `c` and ends at `d`. -/
def State.word (s : State) (c d : Cursor) : State :=
  let text := c.textTo d
  let word := String.ofList text
  let call := if d.callFollows then Marker.ofCall? word else none
  let s' :=
    if call.isSome then s.mark call
    else if word = "vir" && s.statementStart && d.bindingFollows then s.mark (some .virtualObject)
    else if s.afterColon && 0 < s.depth && d.valueEnds then
      { s with literals := ⟨c.offset, text⟩ :: s.literals }
    else s
  s'.inside

/-- Read another character of code. -/
def State.char (s : State) (ch : Char) : State :=
  { s with
    depth := if ch = '{' then s.depth + 1 else if ch = '}' then s.depth - 1 else s.depth
    statementStart := ch = '{' || ch = '}' || ch = ';'
    afterColon := ch = ':' }

/-- What is known at the end of a script, from a cursor on. -/
def scanFrom (s : State) (c : Cursor) : State :=
  match c.front .script with
  | .finish | .openRegion _ _ => s
  | .region .string after => scanFrom s.inside after.cursor
  | .region _ after => scanFrom s after.cursor
  | .code ch after =>
    if isAsciiSpace ch then
      scanFrom { s with statementStart := s.statementStart || ch = '\n' } after.cursor
    else if isNameStart ch then
      let past := after.eatWhile isNamePart
      scanFrom (s.word c past.cursor) past.cursor
    else match c.enhancedSelector? with
      | some past => scanFrom (s.mark (some .enhancedSelector)).inside past.cursor
      | none =>
        if c.startsWith ['-', '>'] then
          scanFrom (s.mark (some .arrow)).inside after.advance.cursor
        else scanFrom (s.char ch) after.cursor
termination_by c.rest.length
decreasing_by all_goals exact Cursor.Later.length_lt _

/-- The markers and bare literals of the text ahead of a cursor. -/
def ofCursor (c : Cursor) : FeatureScan :=
  let s := scanFrom ⟨.none, [], 0, true, false⟩ c
  ⟨s.features, s.literals.reverse⟩

end FeatureScan

end Polyglot
