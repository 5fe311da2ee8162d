-- SUMMARY: Where the statements of a local script end.
import Polyglot.Guard

/-!
# Statements

`statementCuts` divides the text of a local script between its top-level
statements: after a semicolon or in front of a line feed, outside any bracket.
A line feed cuts only where code stands before it, so comments and blank lines
lead the statement after them. A statement that begins with a word that wants a
body is not cut at the line feed between its header and its body.
-/

namespace Polyglot

/-- Words whose body may begin on the next line. -/
def bodyKeywords : List String :=
  ["if", "else", "for", "while", "do", "switch", "try", "catch", "finally", "function", "class",
    "with"]

/-- What is known of the statement being read. -/
structure StatementState where
  /-- Open braces. A closing brace too many is not counted. -/
  braces : Nat
  /-- Opening parentheses and square brackets less the closing ones. -/
  groups : Int
  /-- The statement has code so far, not only comments and blanks. -/
  hasCode : Bool
  /-- The statement began with a word that wants a body, and has none yet. -/
  awaitsBody : Bool
  deriving DecidableEq

namespace StatementState

/-- Nothing was read. -/
def initial : StatementState := ⟨0, 0, false, false⟩

/-- No bracket is open. -/
def isTopLevel (s : StatementState) : Bool := s.braces = 0 && s.groups ≤ 0

/-- A new statement begins. -/
def fresh (s : StatementState) : StatementState := { s with hasCode := false, awaitsBody := false }

/-- Count a character of code. -/
def count (s : StatementState) (ch : Char) : StatementState :=
  let s := { s with hasCode := true }
  match ch with
  | '{' => { s with braces := s.braces + 1, awaitsBody := s.awaitsBody && !s.isTopLevel }
  | '}' => { s with braces := s.braces - 1 }
  | '(' | '[' => { s with groups := s.groups + 1 }
  | ')' | ']' => { s with groups := s.groups - 1 }
  | _ => s

end StatementState

/-- Cuts from a cursor on. `cuts` holds the earlier ones, last one first. -/
def cutsFrom (s : StatementState) (cuts : List Cursor) (c : Cursor) : List Cursor :=
  match c.front .script with
  | .finish | .openRegion _ _ => cuts
  | .region .string after => cutsFrom { s with hasCode := true } cuts after.cursor
  | .region _ after => cutsFrom s cuts after.cursor
  | .code ch after =>
    if isBlank ch then
      if ch = '\n' && s.hasCode && s.isTopLevel then
        if s.awaitsBody then cutsFrom { s with awaitsBody := false } cuts after.cursor
        else cutsFrom s.fresh (c :: cuts) after.cursor
      else cutsFrom s cuts after.cursor
    else if !s.hasCode && isWordStart ch then
      let past := after.eatWhile isNamePart
      let word := String.ofList (c.textTo past.cursor)
      cutsFrom { s with hasCode := true, awaitsBody := bodyKeywords.contains word } cuts past.cursor
    else
      let s := s.count ch
      if ch = ';' && s.isTopLevel then cutsFrom s.fresh (after.cursor :: cuts) after.cursor
      else cutsFrom s cuts after.cursor
termination_by c.rest.length
decreasing_by all_goals exact Cursor.Later.length_lt _

/-- The cursors that divide the statements of a script, in order. None stands
at the end of the text. -/
def statementCuts (c : Cursor) : List Cursor :=
  ((cutsFrom .initial [] c).filter (!·.atEnd)).reverse

end Polyglot
