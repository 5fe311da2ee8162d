-- SUMMARY: Minimal units: the smallest pieces of a fragment that a compiler can replace.
import Polyglot.Brace
import Polyglot.Fragment

/-!
# Minimal units

A fragment divides into tokens by the rules of its target: a script into the
tokens of the extended dialect, a style sheet into declarations and rules,
template text into words and marks. White space and comments belong to the
token before them, those at the start to the first token, so the units read one
after the other are the fragment. Text that no compiler reads stays whole.
-/

namespace Polyglot

namespace Cursor

/-! ## Tokens of scripts -/

/-- The characters of operators. -/
def isOperator (c : Char) : Bool :=
  ['+', '-', '*', '/', '%', '=', '<', '>', '!', '&', '|', '^', '~', '?', ':'].contains c

/-- The cursor after an arrow, if one lies ahead. -/
def pastArrow {c : Cursor} (l : c.Later) : c.Later :=
  match h : l.cursor.eat ['-', '>'] with
  | some d => l.move d ⟨_, consumes_eat rfl h⟩
  | none => l

/-- The cursor after the double closing brace ahead, or the end of the text. -/
def pastSelector {c : Cursor} (l : c.Later) : c.Later :=
  match h : l.cursor.find ['}', '}'] with
  | some d => (l.move d (reaches_find h)).advance.advance
  | none => l.toEnd

/-- The cursor after a run of operator characters. A comment or an arrow ends the run. -/
def operatorEnd {c : Cursor} (l : c.Later) : c.Later :=
  match l.cursor.front .script with
  | .code ch after =>
    if isOperator ch && !l.cursor.startsWith ['-', '>'] then operatorEnd (after.since l.reaches)
    else l
  | _ => l
termination_by l.cursor.rest.length
decreasing_by exact after.length_lt

/-- A token of a script that begins with the character `ch` at `c`. A selector
or a name takes the arrow behind it along. -/
def scriptToken (c : Cursor) (ch : Char) (after : c.Later) : c.Later :=
  if c.startsWith ['{', '{'] then pastArrow (pastSelector after)
  else if isNameStart ch then pastArrow (after.eatWhile isNamePart)
  else if ch.isDigit then after.eatWhile fun ch => ch.isAlphanum || ch = '.' || ch = '_'
  else if c.startsWith ['-', '>'] then after.advance
  else if isOperator ch then operatorEnd after
  else after

/-! ## Tokens of style sheets -/

/-- The cursor after the rule whose brace is at `c`, or the end of the text. -/
def ruleEnd (c : Cursor) (after : c.Later) : c.Later :=
  match c.matchingClose .style with
  | .ok close => close.advance
  | .error _ => after.toEnd

/-- The cursor after the declaration or rule that was begun. A closing brace
that it did not open ends it too, and stays ahead. -/
def declarationEnd {c : Cursor} (l : c.Later) : c.Later :=
  match l.cursor.front .style with
  | .finish => l
  | .openRegion _ atEnd => atEnd.since l.reaches
  | .region _ after => declarationEnd (after.since l.reaches)
  | .code ch after =>
    if ch = '}' then l
    else if ch = ';' then after.since l.reaches
    else if ch = '{' then (ruleEnd l.cursor after).since l.reaches
    else declarationEnd (after.since l.reaches)
termination_by l.cursor.rest.length
decreasing_by all_goals exact after.length_lt

/-- A token of a style sheet that begins with the character `ch` at `c`. -/
def styleToken (c : Cursor) (ch : Char) (after : c.Later) : c.Later :=
  if ch = '}' || ch = ';' then after
  else if ch = '{' then ruleEnd c after
  else declarationEnd after

/-! ## Tokens of template text -/

/-- A token of template text that begins with the character `ch`: a word, or a
single mark. -/
def templateToken (ch : Char) {c : Cursor} (after : c.Later) : c.Later :=
  if ch.isAlphanum || ch = '_' then after.eatWhile isWordPart else after

end Cursor

/-! ## Pieces -/

/-- What a piece of text is. -/
inductive Piece where
  /-- White space or a comment. -/
  | trivia
  | token
  deriving DecidableEq

namespace Target

/-- The end of a token that begins with the character `ch` at `c`. -/
def tokenEnd (target : Target) (c : Cursor) (ch : Char) (after : c.Later) : c.Later :=
  match target with
  | .script | .scriptExtension => c.scriptToken ch after
  | .css => c.styleToken ch after
  | .template => Cursor.templateToken ch after
  | .passthrough => after.toEnd

/-- The end of a token that begins with a string. -/
def tokenEndAfterString (target : Target) {c : Cursor} (after : c.Later) : c.Later :=
  match target with
  | .css => Cursor.declarationEnd after
  | _ => after

/-- The piece of text ahead. A string that runs to the end of the text is a token. -/
def piece? (target : Target) (set : GuardSet) (c : Cursor) : Option (Piece × c.Later) :=
  match c.front set with
  | .finish => none
  | .region .string after => some (.token, target.tokenEndAfterString after)
  | .region _ after => some (.trivia, after)
  | .openRegion issue atEnd =>
    some (if issue.region = .blockComment then .trivia else .token, atEnd)
  | .code ch after =>
    if isBlank ch then some (.trivia, after.eatWhile isBlank)
    else some (.token, target.tokenEnd c ch after)

/-- The cursors at which tokens begin, last one first, from a cursor on. -/
def tokensFrom (target : Target) (set : GuardSet) (found : List Cursor) (c : Cursor) :
    List Cursor :=
  match target.piece? set c with
  | none => found
  | some (.trivia, after) => tokensFrom target set found after.cursor
  | some (.token, after) => tokensFrom target set (c :: found) after.cursor
termination_by c.rest.length
decreasing_by all_goals exact Cursor.Later.length_lt _

/-- The cursors that divide the units of a text, in order: where each token but
the first begins. -/
def unitCuts (target : Target) (set : GuardSet) (c : Cursor) : List Cursor :=
  (tokensFrom target set [] c).reverse.drop 1

end Target

/-! ## Units -/

namespace Fragment

/-- The part of a fragment between two cursors, with the literals that begin in it. -/
def part (f : Fragment) (c d : Cursor) : Fragment :=
  { f with
    content := c.textTo d
    start := c.position
    stop := d.position
    literals := f.literals.filter fun l => c.offset ≤ l.offset && l.offset < d.offset }

/-- The minimal units of a fragment, numbered on from `issued`. -/
def minimalUnits (issued : Nat) (f : Fragment) : List Fragment :=
  let c := f.cursor
  let parts := (c.stretches (f.target.unitCuts f.context.guardSet c)).map fun (c, d) => f.part c d
  ((parts.filter (!·.content.isEmpty)).zipIdx issued).map fun (u, id) => { u with id := id }

end Fragment

end Polyglot
