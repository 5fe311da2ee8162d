-- SUMMARY: The structural pass: from a document to its first fragments.
import Polyglot.Brace
import Polyglot.Outline.State
import Polyglot.Statement

/-!
# The structural pass

One walk over the template text of a document. Bodies of style, script, text
and origin blocks are matched as a whole with the guard set of their own
sub-language and emitted apart; everything else stays in the runs around them.

Between a block's opening brace and its body, blanks belong to the run before.
Between body and closing brace, white space belongs to the run after. A block
that is never closed ends the pass: what remains of the document is emitted as
one degraded fragment.
-/

namespace Polyglot

namespace Outline

/-- How the pass goes on after a step at `c`. -/
inductive Flow (c : Cursor) where
  | onward (o : Outline) (next : c.Later)
  /-- The document is used up. -/
  | stop (o : Outline)

/-! ## Embedded blocks -/

/-- Emit the body of a block, which begins at `body`. A local script is emitted
statement by statement if the options say so. -/
def emitBody (options : Options) (o : Outline) (frame : Frame) (body : Cursor)
    (text : List Char) : Outline :=
  let within : Cursor := ⟨body.position, text⟩
  let cuts :=
    if frame.context = .scriptLocal && options.splitStatements then statementCuts within else []
  (within.stretches cuts).foldl (fun o (c, d) => o.emit frame false c d) o

/-- Go on from the opening brace of an embedded block, at `c`, of which it is known
what closes it. -/
def embeddedBy (options : Options) (o : Outline) (context : Context) (c : Cursor)
    (close : Except Unbalanced c.Later) : Flow c :=
  let entered := o.stack.enter context .brace c.position
  let frame := entered.frame
  let body := c.advance.skipBlank
  match close with
  | .error unbalanced =>
    let o := unbalanced.issue.elim o o.guardIssue
    let o := (o.emitRun body).fault (.unclosedBlock context unbalanced.depth) c
    .stop (o.emit { frame with context := .rawHtml } true body body.toEnd)
  | .ok close =>
    let text := trimEnd (body.textTo close.cursor)
    let stack := (entered.exit context).2
    let o :=
      if text.isEmpty then o
      else
        { emitBody options (o.emitRun body) frame body text with
          mark := body.skip text.length, run := stack.frame }
    .onward { o with stack := stack, head := .start } close.advance

/-- Read an embedded block from its opening brace, at `c`, to its closing one. -/
def embedded (options : Options) (o : Outline) (context : Context) (c : Cursor) : Flow c :=
  embeddedBy options o context c (c.matchingClose context.guardSet)

/-! ## Characters of code -/

/-- An opening brace at `c`. After a block keyword it opens an embedded block,
after a declaration header the body of the declaration, and else an element. -/
def openBrace (options : Options) (o : Outline) (c : Cursor) (after : c.Later) : Flow c :=
  match o.head with
  | .keyword k => embedded options o (k.context options.rootAsElement o.stack.current) c
  | _ =>
    match o.stack.openHeaderBody c.position with
    | some stack => .onward { o with stack := stack, head := .start } after
    | none =>
      let context :=
        if o.stack.current = .configurationBody then Context.configurationBody else .elementBody
      let o := o.changeStack after.cursor (o.stack.enter context .brace c.position)
      .onward { o with head := .start } after

/-- A closing brace at `c`. -/
def closeBrace (o : Outline) (c : Cursor) (after : c.Later) : Outline :=
  let (closed, stack) := o.stack.closeBrace
  let o := { o.changeStack after.cursor stack with head := .start }
  match closed with
  | .ok _ => o
  | .error .empty => o.fault .unmatchedBrace c
  | .error (.mismatch expected found openedAt) => o.fault (.bodilessHeader expected found openedAt) c

/-- A semicolon, which ends a declaration header. -/
def semicolon (o : Outline) {c : Cursor} (after : c.Later) : Outline :=
  { o.changeStack after.cursor o.stack.endHeader.2 with head := .start }

/-- An opening bracket at the start of a statement. An origin declaration with
a body is read to the end of that body. -/
def declaration (options : Options) (o : Outline) (c : Cursor) (after : c.Later) : Flow c :=
  let o := { o with head := .other }
  match Cursor.declaration? after with
  | none => .onward o after
  | some (context, header) =>
    let o := o.changeStack c (o.stack.enter context .header c.position)
    match if context = .originBody then Cursor.originBody? header else none with
    | none => .onward o header
    | some (raw, brace) =>
      let stack := (o.stack.openHeaderBody brace.cursor.position).getD o.stack
      match embedded options { o with stack := stack } raw brace.cursor with
      | .stop o => .stop o
      | .onward o next =>
        let next := next.since brace.reaches
        .onward (o.changeStack next.cursor (o.stack.exit context).2) next

/-- The first word of a statement, which may be a block keyword. -/
def headWord (o : Outline) (c : Cursor) (past : c.Later) : Outline :=
  let word := String.ofList (c.textTo past.cursor)
  { o with head := ((BlockKeyword.ofWord? word).map Head.keyword).getD .other }

/-- One character of code, at `c`. -/
def code (options : Options) (o : Outline) (c : Cursor) (ch : Char) (after : c.Later) : Flow c :=
  let o := o.beforeCode (ch = '{') c
  match ch with
  | '{' => openBrace options o c after
  | '}' => .onward (o.closeBrace c after) after
  | ';' => .onward (o.semicolon after) after
  | _ =>
    if o.head = .start && ch = '[' then declaration options o c after
    else if o.head = .start && isWordStart ch then
      let past := after.eatWhile isWordPart
      .onward (o.headWord c past) past
    else .onward { o with head := .other } after

/-! ## The walk -/

/-- The guard set of template text under some options. -/
def templateSet (options : Options) : GuardSet :=
  GuardSet.template.withGeneratorComments options.generatorComments

/-- One step of the walk: what lies ahead of `c` is a blank, a comment, a string
or code. A string is code of which only its presence matters. -/
def step (options : Options) (o : Outline) (c : Cursor) : Flow c :=
  match c.front (templateSet options) with
  | .finish => .stop (o.finish c)
  | .openRegion issue atEnd =>
    let o := if issue.region = .blockComment then o else o.beforeCode false c
    .onward (o.guardIssue issue) atEnd
  | .region .string after => .onward { o.beforeCode false c with head := .other } after
  | .region _ after => .onward o after
  | .code ch after =>
    if isBlank ch then .onward { o with newline := o.newline || ch = '\n' } after
    else o.code options c ch after

/-- Walk on from `c` to the end of the document. -/
def walk (options : Options) (o : Outline) (c : Cursor) : Outline :=
  match o.step options c with
  | .onward o next => walk options o next.cursor
  | .stop o => o
termination_by c.rest.length
decreasing_by exact next.length_lt

/-- The structural pass over a document. A byte order mark belongs to the first
run and begins no statement. -/
def ofText (options : Options) (text : List Char) (log : Log) : Outline :=
  let c : Cursor := ⟨.start, text⟩
  let first := if text.head? = some EncodingIssue.byteOrderMark then c.advance else c
  walk options (initial c log) first

end Outline

end Polyglot
