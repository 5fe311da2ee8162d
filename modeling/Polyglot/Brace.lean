-- SUMMARY: Matching braces outside guarded regions.
import Polyglot.Guard

/-!
# Braces

Only braces outside strings and comments count. `Cursor.matchingClose` finds
the brace that closes the one ahead, in one pass; `netDepth` counts what a text
leaves open.
-/

namespace Polyglot

/-- A brace that nothing closes. -/
structure Unbalanced where
  /-- Where the brace stands. -/
  opened : Position
  /-- How many braces are open where the text ends. -/
  depth : Nat
  /-- The region that ran to the end of the text, if one did. -/
  issue : Option GuardIssue
  deriving DecidableEq

namespace Cursor

/-- The cursor on the brace that closes the outermost of `depth` open braces,
or how many are open at the end of the text. -/
def closeFrom (set : GuardSet) (depth : Nat) (c : Cursor) :
    Except (Nat × Option GuardIssue) Cursor :=
  match c.front set with
  | .finish => .error (depth, none)
  | .openRegion issue _ => .error (depth, some issue)
  | .region _ after => closeFrom set depth after.cursor
  | .code ch after =>
    if ch = '{' then closeFrom set (depth + 1) after.cursor
    else if ch = '}' then
      if depth ≤ 1 then .ok c else closeFrom set (depth - 1) after.cursor
    else closeFrom set depth after.cursor
termination_by c.rest.length
decreasing_by all_goals exact Cursor.Later.length_lt _

theorem closeFrom_reaches {set : GuardSet} {depth : Nat} {c d : Cursor}
    (h : closeFrom set depth c = .ok d) : c.Reaches d := by
  fun_induction closeFrom set depth c with
  | case1 => cases h
  | case2 => cases h
  | case3 _ _ _ after _ ih => exact after.reaches.trans (ih h)
  | case4 _ _ after _ ih => exact after.reaches.trans (ih h)
  | case5 => cases h; exact Reaches.refl _
  | case6 _ _ after _ _ _ ih => exact after.reaches.trans (ih h)
  | case7 _ _ _ after _ _ _ ih => exact after.reaches.trans (ih h)

/-- The brace that closes the one under the cursor. -/
def matchingClose (set : GuardSet) (c : Cursor) : Except Unbalanced c.Later :=
  match h : c.rest with
  | [] => .error ⟨c.position, 1, none⟩
  | ch :: rest =>
    let inside := c.next ch rest h
    match hd : closeFrom set 1 inside.cursor with
    | .ok d => .ok (inside.move d (closeFrom_reaches hd))
    | .error (depth, issue) => .error ⟨c.position, depth, issue⟩

end Cursor

/-- The depth at the end of the text, from a cursor on at depth `net`. -/
def netDepthFrom (set : GuardSet) (net : Int) (c : Cursor) : Int :=
  match c.front set with
  | .finish | .openRegion _ _ => net
  | .region _ after => netDepthFrom set net after.cursor
  | .code ch after =>
    let change : Int := if ch = '{' then 1 else if ch = '}' then -1 else 0
    netDepthFrom set (net + change) after.cursor
termination_by c.rest.length
decreasing_by all_goals exact Cursor.Later.length_lt _

/-- How many more braces a text opens than it closes. -/
def netDepth (set : GuardSet) (text : List Char) : Int := netDepthFrom set 0 ⟨.start, text⟩

end Polyglot
