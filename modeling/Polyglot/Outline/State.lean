-- SUMMARY: The state of the structural pass: open contexts, the current run, what was emitted.
import Polyglot.Finding
import Polyglot.Fragment
import Polyglot.Options
import Polyglot.Outline.Header

/-!
# The state of the structural pass

Template text is gathered in runs. A run begins where the innermost context
changed and ends where it changes again, so the state keeps where the run began
and the frame it began under. Whatever is emitted becomes a fragment with the
next number; a stretch without text is dropped.
-/

namespace Polyglot

/-- What was seen of the current statement. -/
inductive Head where
  /-- Nothing but blanks and comments. -/
  | start
  /-- Only a block keyword. -/
  | keyword (k : BlockKeyword)
  | other
  deriving DecidableEq

/-- The state of the structural pass. -/
structure Outline where
  stack : Stack
  /-- Where the current run begins. -/
  mark : Cursor
  /-- The frame under which the current run began. -/
  run : Frame
  head : Head
  /-- A line feed was read since the last code. -/
  newline : Bool
  /-- The fragments emitted so far, last one first. -/
  emitted : List Fragment
  /-- How many numbers were given out. -/
  issued : Nat
  log : Log

namespace Outline

/-- The state at the start of a document, after the encoding was looked at. -/
def initial (c : Cursor) (log : Log) : Outline :=
  { stack := .empty, mark := c, run := Stack.empty.frame, head := .start, newline := false,
    emitted := [], issued := 0, log := log }

/-- The fragments in document order. -/
def fragments (o : Outline) : List Fragment := o.emitted.reverse

/-! ## Emitting -/

/-- Emit the stretch between two cursors, unless it is empty. -/
def emit (o : Outline) (frame : Frame) (degraded : Bool) (c d : Cursor) : Outline :=
  match c.textTo d with
  | [] => o
  | content =>
    let fragment : Fragment :=
      { toFrame := frame, id := o.issued, content := content, start := c.position,
        stop := d.position, features := .none, literals := [], degraded := degraded }
    { o with emitted := fragment :: o.emitted, issued := o.issued + 1 }

/-- Emit the current run, which ends at `c`. -/
def emitRun (o : Outline) (c : Cursor) : Outline := o.emit o.run false o.mark c

/-- Add an error found at `c`. -/
def fault (o : Outline) (f : Fault) (c : Cursor) : Outline :=
  { o with log := o.log.error (f.found c.position) }

/-- Add an unterminated region. -/
def guardIssue (o : Outline) (issue : GuardIssue) : Outline :=
  { o with log := o.log.guardIssue issue }

/-! ## Changes of context -/

/-- Put another stack in place at `c`. If the innermost context is no longer
that of the run, the run ends there and the next one begins. -/
def changeStack (o : Outline) (c : Cursor) (stack : Stack) : Outline :=
  let o := { o with stack := stack }
  if stack.current = o.run.context then o
  else { o.emitRun c with mark := c, run := stack.frame }

/-- Called in front of code at `c`. A line end before it ends a declaration
header and the statement, unless the code is the brace of a block. -/
def beforeCode (o : Outline) (isBrace : Bool) (c : Cursor) : Outline :=
  if o.newline && !isBrace then
    { o.changeStack c o.stack.endHeader.2 with newline := false, head := .start }
  else { o with newline := false }

/-- The document ends at `c`: emit the last run and report the outermost brace
that is still open. -/
def finish (o : Outline) (c : Cursor) : Outline :=
  let o := o.emitRun c
  match o.stack.outermostBrace with
  | some entry =>
    { o with log := o.log.error ((Fault.unclosedBrace entry.context).found entry.openedAt) }
  | none => o

end Outline

end Polyglot
