-- SUMMARY: What one step of the structural pass does, and the signs that it goes by.
import Polyglot.Proofs.Operation
import Polyglot.Proofs.Sign

/-!
# Steps

A step of the structural pass does one of a few things to its state. `Outline.Steps`
lists them, each with the signs that the pass meets on the way, and `steps` says that
the list is complete. An invariant of the pass is one case analysis over it, and
`walk_meets` carries what a step keeps to the whole pass.
-/

namespace Polyglot

namespace Outline

variable {options : Options} {o : Outline} {c d : Cursor}

/-! ## The signs of a document -/

/-- The sign of a declaration in brackets, whose opening bracket was just read. -/
def declarationSign? {c : Cursor} (after : c.Later) : Option Sign :=
  (Cursor.declaration? after).map fun (context, header) =>
    match if context = .originBody then Cursor.originBody? header else none with
    | some (raw, brace) => .block raw brace.cursor
    | none => .header

/-- The sign that a character of code begins. -/
def codeSign? (options : Options) (o : Outline) (c : Cursor) (ch : Char) (after : c.Later) :
    Option Sign :=
  match ch with
  | '{' =>
    match o.head with
    | .keyword k => some (.block (k.context options.rootAsElement o.stack.current) c)
    | _ => some (.opening c.position)
  | '}' => some (.closing c.position)
  | ';' => some .ending
  | _ => if o.head = .start && ch = '[' then declarationSign? after else none

/-- The sign of a line end in front of code. -/
def lineSign? (o : Outline) (isBrace : Bool) : Option Sign :=
  if o.newline && !isBrace then some .ending else none

/-- The signs that a step at `c` meets. -/
def signsAt (options : Options) (o : Outline) (c : Cursor) : List Sign :=
  match c.front (templateSet options) with
  | .finish => []
  | .openRegion issue _ => if issue.region = .blockComment then [] else (o.lineSign? false).toList
  | .region .string _ => (o.lineSign? false).toList
  | .region _ _ => []
  | .code ch after =>
    if isBlank ch then []
    else (o.lineSign? (ch = '{')).toList ++
      ((o.beforeCode (ch = '{') c).codeSign? options c ch after).toList

/-- The signs that the walk from `c` to the end of the document meets. -/
def signs (options : Options) (o : Outline) (c : Cursor) : List Sign :=
  o.signsAt options c ++
    match o.step options c with
    | .onward o next => signs options o next.cursor
    | .stop _ => []
termination_by c.rest.length
decreasing_by exact next.length_lt

/-- The signs of a document, in order. -/
def signsOfText (options : Options) (text : List Char) (log : Log) : List Sign :=
  let c : Cursor := ⟨.start, text⟩
  let first := if text.head? = some EncodingIssue.byteOrderMark then c.advance else c
  signs options (initial c log) first

/-! ## Embedded blocks -/

/-- What it means to read an embedded block from its brace at `c`, if it is known what
closes the block. -/
inductive EmbedsBy (options : Options) (o : Outline) (context : Context) (c : Cursor)
    (found : Except Unbalanced c.Later) : Flow c → Prop where
  /-- The block is never closed. -/
  | unclosed {unbalanced : Unbalanced} (unmatched : found = .error unbalanced) :
      EmbedsBy options o context c found
        (.stop ((((unbalanced.issue.elim o o.guardIssue).emitRun c.advance.skipBlank).fault
          (.unclosedBlock context unbalanced.depth) c).emit
            { (o.stack.enter context .brace c.position).frame with context := .rawHtml } true
            c.advance.skipBlank c.advance.skipBlank.toEnd))
  /-- The block has no text. -/
  | blank {close : c.Later} (closed : found = .ok close)
      (blank : trimEnd (c.advance.skipBlank.textTo close.cursor) = []) :
      EmbedsBy options o context c found
        (.onward { o with stack := ⟨o.stack.entries, o.stack.lastScope + 1⟩, head := .start }
          close.advance)
  /-- The text of the block is emitted for itself. -/
  | body {close : c.Later} {text : List Char} (closed : found = .ok close)
      (trimmed : trimEnd (c.advance.skipBlank.textTo close.cursor) = text) (nonempty : text ≠ []) :
      EmbedsBy options o context c found
        (.onward
          { emitBody options (o.emitRun c.advance.skipBlank)
              (o.stack.enter context .brace c.position).frame c.advance.skipBlank text with
            stack := ⟨o.stack.entries, o.stack.lastScope + 1⟩
            mark := c.advance.skipBlank.skip text.length
            run := o.stack.frame
            head := .start } close.advance)

theorem embedsBy (options : Options) (o : Outline) (context : Context) (c : Cursor)
    (found : Except Unbalanced c.Later) :
    EmbedsBy options o context c found (embeddedBy options o context c found) := by
  unfold Outline.embeddedBy
  cases hclose : found with
  | error unbalanced => exact .unclosed rfl
  | ok close =>
    simp only [Stack.exit_enter_eq]
    split
    · next hblank => exact .blank rfl (by simpa using hblank)
    · next hne => exact .body rfl rfl (by simpa using hne)

/-- What it means to read an embedded block with the guard set of its context. -/
abbrev Embeds (options : Options) (o : Outline) (context : Context) (c : Cursor) :
    Flow c → Prop :=
  EmbedsBy options o context c (c.matchingClose context.guardSet)

theorem embeds (options : Options) (o : Outline) (context : Context) (c : Cursor) :
    Embeds options o context c (embedded options o context c) :=
  embedsBy options o context c _

/-! ## Characters of code -/

/-- The state at the brace of an origin block, whose declaration begins at `c`. -/
def openOrigin (o : Outline) (c brace : Cursor) : Outline :=
  let o := ({ o with head := .other } : Outline).changeStack c
    (o.stack.enter .originBody .header c.position)
  { o with stack := (o.stack.openHeaderBody brace.position).getD o.stack }

/-- What a character of code at `c` does, and the signs that it makes. -/
inductive Acts (options : Options) (o : Outline) (c : Cursor) : List Sign → Flow c → Prop where
  /-- It changes no context. -/
  | pass {head : Head} (next : c.Later) (begins : o.head = .start ∨ head = .other) :
      Acts options o c [] (.onward { o with head := head } next)
  /-- A brace opens the body of a declaration. -/
  | openBody {stack : Stack} (after : c.Later) (brace : c.rest.head? = some '{')
      (opened : o.stack.openHeaderBody c.position = some stack) :
      Acts options o c [.opening c.position] (.onward { o with stack := stack, head := .start } after)
  /-- A brace opens an element, or a group of a configuration. -/
  | openElement {context : Context} (after : c.Later) (brace : c.rest.head? = some '{')
      (noHeader : o.stack.openHeaderBody c.position = none)
      (kind : context = .elementBody ∨ context = .configurationBody) :
      Acts options o c [.opening c.position]
        (.onward { o.changeStack after.cursor (o.stack.enter context .brace c.position) with
          head := .start } after)
  | closeBrace (after : c.Later) (brace : c.rest.head? = some '}') :
      Acts options o c [.closing c.position] (.onward (o.closeBrace c after) after)
  | semicolon (after : c.Later) : Acts options o c [.ending] (.onward (o.semicolon after) after)
  /-- A declaration header begins. -/
  | header {context : Context} (next : c.Later) (start : o.head = .start)
      (declared : ∃ word, Context.ofDeclaration? word = some context) :
      Acts options o c [.header]
        (.onward (({ o with head := .other } : Outline).changeStack c
          (o.stack.enter context .header c.position)) next)
  /-- A block keyword hands its body over. -/
  | block {k : BlockKeyword} {flow : Flow c} (after : c.Later) (keyword : o.head = .keyword k)
      (brace : c.rest.head? = some '{')
      (embeds : Embeds options o (k.context options.rootAsElement o.stack.current) c flow) :
      Acts options o c [.block (k.context options.rootAsElement o.stack.current) c] flow
  /-- The body of an origin block is never closed. -/
  | originStop {raw : Context} {o' : Outline} (brace : c.Later) (start : o.head = .start)
      (isRaw : raw.isRaw) (isBrace : brace.cursor.rest.head? = some '{')
      (embeds : Embeds options (o.openOrigin c brace.cursor) raw brace.cursor (.stop o')) :
      Acts options o c [.block raw brace.cursor] (.stop o')
  /-- An origin block is read to the end of its body. -/
  | origin {raw : Context} {o' : Outline} (brace : c.Later) {next : brace.cursor.Later}
      (start : o.head = .start) (isRaw : raw.isRaw)
      (isBrace : brace.cursor.rest.head? = some '{')
      (embeds : Embeds options (o.openOrigin c brace.cursor) raw brace.cursor (.onward o' next)) :
      Acts options o c [.block raw brace.cursor]
        (.onward (o'.changeStack next.cursor (o'.stack.exit .originBody).2)
          (next.since brace.reaches))

/-- An origin block has a raw body, and its brace lies ahead. -/
theorem originBody?_spec {header brace : c.Later} {raw : Context}
    (h : Cursor.originBody? header = some (raw, brace)) :
    raw.isRaw ∧ brace.cursor.rest.head? = some '{' := by
  unfold Cursor.originBody? at h
  simp only at h
  split at h
  · cases h
  · simp only [Option.ite_none_right_eq_some, Option.some.injEq, Prod.mk.injEq] at h
    obtain ⟨hbrace, rfl, rfl⟩ := h
    refine ⟨?_, hbrace⟩
    unfold Context.ofOriginType
    split <;> rfl

theorem ofDeclaration?_of_declaration? {inside header : c.Later} {context : Context}
    (h : Cursor.declaration? inside = some (context, header)) :
    ∃ word, Context.ofDeclaration? word = some context := by
  simp only [Cursor.declaration?] at h
  split at h
  · obtain ⟨context', hword, heq⟩ := Option.map_eq_some_iff.1 h
    cases heq
    exact ⟨_, hword⟩
  · cases h

theorem acts_declaration (h : o.head = .start) (after : c.Later) :
    Acts options o c (declarationSign? after).toList (declaration options o c after) := by
  unfold declarationSign? declaration
  cases hdecl : Cursor.declaration? after with
  | none => exact .pass after (.inr rfl)
  | some found =>
    obtain ⟨context, header⟩ := found
    have hdeclared := ofDeclaration?_of_declaration? hdecl
    simp only [Option.map_some, Option.toList_some]
    cases horigin : if context = .originBody then Cursor.originBody? header else none with
    | none => exact .header header h hdeclared
    | some body =>
      obtain ⟨raw, brace⟩ := body
      simp only
      obtain ⟨rfl, hbody⟩ : context = .originBody ∧ Cursor.originBody? header = some (raw, brace) := by
        simpa using horigin
      obtain ⟨hraw, hbrace⟩ := originBody?_spec hbody
      -- the state at the brace is that of `openOrigin`
      have hembeds := embeds options (o.openOrigin c brace.cursor) raw brace.cursor
      unfold openOrigin at hembeds
      revert hembeds
      generalize hflow : embedded options _ raw brace.cursor = flow
      intro hembeds
      cases flow with
      | stop o' => exact .originStop brace h hraw hbrace hembeds
      | onward o' next => exact .origin brace h hraw hbrace hembeds

theorem acts_openBrace (hc : c.rest.head? = some '{') (after : c.Later) :
    Acts options o c (o.codeSign? options c '{' after).toList (openBrace options o c after) := by
  -- without a block keyword the brace opens the body of a declaration or an element
  have hopening : o.head = .start ∨ o.head = .other →
      Acts options o c [.opening c.position] (openBrace options o c after) := by
    intro hhead
    unfold openBrace
    obtain hhead | hhead := hhead <;> simp only [hhead]
    all_goals
      cases hopen : o.stack.openHeaderBody c.position with
      | some stack => exact .openBody after hc hopen
      | none =>
        refine .openElement after hc hopen ?_
        split
        · exact .inr rfl
        · exact .inl rfl
  unfold codeSign?
  simp only
  cases hhead : o.head with
  | keyword k =>
    unfold openBrace
    rw [hhead]
    exact .block after hhead hc (embeds _ _ _ _)
  | start => exact hopening (.inl hhead)
  | other => exact hopening (.inr hhead)

/-- A character that is no brace and no semicolon makes a sign only as the bracket of a
declaration. -/
theorem codeSign?_of_ne {ch : Char} {after : c.Later} (hopen : ch ≠ '{') (hclose : ch ≠ '}')
    (hsemi : ch ≠ ';') : o.codeSign? options c ch after =
      if o.head = .start && ch = '[' then declarationSign? after else none := by
  unfold codeSign?
  split
  · exact absurd rfl hopen
  · exact absurd rfl hclose
  · exact absurd rfl hsemi
  · rfl

/-- The list of what a character of code does is complete. -/
theorem acts (options : Options) (o : Outline) {ch : Char} {after : c.Later}
    (hc : c.rest = ch :: after.cursor.rest) :
    Acts options (o.beforeCode (ch = '{') c) c
      ((o.beforeCode (ch = '{') c).codeSign? options c ch after).toList
      (code options o c ch after) := by
  unfold code
  generalize o.beforeCode (ch = '{') c = o
  have hhead : ∀ brace, ch = brace → c.rest.head? = some brace := by
    rintro brace rfl
    rw [hc]
    rfl
  clear hc
  simp only
  split
  · exact acts_openBrace (hhead '{' rfl) after
  · exact .closeBrace after (hhead '}' rfl)
  · exact .semicolon after
  · next hopen hclose hsemi =>
    rw [codeSign?_of_ne hopen hclose hsemi]
    split
    · next hbracket =>
      simp only [Bool.and_eq_true, decide_eq_true_eq] at hbracket
      exact acts_declaration hbracket.1 after
    · split
      · next hword =>
        simp only [Bool.and_eq_true, decide_eq_true_eq] at hword
        exact .pass _ (.inl hword.1)
      · exact .pass after (.inr rfl)

/-- Some text lies ahead of code. -/
theorem Acts.ahead {signs : List Sign} {flow : Flow c} (hflow : Acts options o c signs flow) :
    c.rest ≠ [] := by
  cases hflow with
  | pass next begins => exact next.rest_ne_nil
  | openBody after brace opened => exact after.rest_ne_nil
  | openElement after brace noHeader kind => exact after.rest_ne_nil
  | closeBrace after brace => exact after.rest_ne_nil
  | semicolon after => exact after.rest_ne_nil
  | header next start declared => exact next.rest_ne_nil
  | block after keyword brace embeds => exact after.rest_ne_nil
  | originStop brace start isRaw isBrace embeds => exact brace.rest_ne_nil
  | origin brace start isRaw isBrace embeds => exact brace.rest_ne_nil

/-! ## Steps -/

/-- What a step at `c` does, and the signs that it meets. -/
inductive Steps (options : Options) (o : Outline) (c : Cursor) : List Sign → Flow c → Prop where
  /-- The document ends. -/
  | finish (atEnd : c.rest = []) : Steps options o c [] (.stop (o.finish c))
  /-- A blank, or a comment. -/
  | gap {newline : Bool} (next : c.Later) :
      Steps options o c [] (.onward { o with newline := newline } next)
  /-- A comment runs to the end of the document. -/
  | openComment {issue : GuardIssue} {next : c.Later} (atEnd : next.cursor.rest = [])
      (comment : issue.region = .blockComment)
      (ahead : c.front (templateSet options) = .openRegion issue next) :
      Steps options o c [] (.onward (o.guardIssue issue) next)
  /-- A string runs to the end of the document. -/
  | openString {issue : GuardIssue} {next : c.Later} (atEnd : next.cursor.rest = [])
      (string : issue.region ≠ .blockComment)
      (ahead : c.front (templateSet options) = .openRegion issue next) :
      Steps options o c (o.lineSign? false).toList
        (.onward ((o.beforeCode false c).guardIssue issue) next)
  | code {isBrace : Bool} {signs : List Sign} {flow : Flow c}
      (acts : Acts options (o.beforeCode isBrace c) c signs flow) :
      Steps options o c ((o.lineSign? isBrace).toList ++ signs) flow

theorem quotes_templateSet (options : Options) :
    (templateSet options).quotes ⊆ GuardSet.script.quotes := Context.quotes_subset .global

/-- The list of what a step does is complete. -/
theorem steps (options : Options) (o : Outline) (c : Cursor) :
    Steps options o c (o.signsAt options c) (o.step options c) := by
  unfold signsAt step
  cases hfront : c.front (templateSet options) with
  | finish => exact .finish (Cursor.front_eq_finish_iff.1 hfront)
  | openRegion issue next =>
    have hend := Cursor.atEnd_of_front hfront
    by_cases hissue : issue.region = .blockComment
    · simp only [if_pos hissue]
      exact .openComment hend hissue hfront
    · simp only [if_neg hissue]
      exact .openString hend hissue hfront
  | region kind next =>
    cases kind with
    | string =>
      have hpass : Acts options (o.beforeCode false c) c []
          (.onward { o.beforeCode false c with head := .other } next) := .pass next (.inr rfl)
      simpa using Steps.code hpass
    | _ => exact .gap next
  | code ch after =>
    simp only
    split
    · exact .gap after
    · exact .code (acts options _ (Cursor.front_code hfront).1)

/-! ## The whole walk -/

/-- What every step keeps holds at the end. Both the invariant and what is to be shown may
speak of the signs that were met. -/
theorem walk_meets {I : Outline → Cursor → List Sign → Prop} {F : Outline → List Sign → Prop}
    (hstep : ∀ {o : Outline} {c : Cursor} {before signs : List Sign} {flow : Flow c},
      I o c before → Steps options o c signs flow →
      flow.Meets (fun o d => I o d (before ++ signs)) fun o => F o (before ++ signs))
    {before : List Sign} (h : I o c before) :
    F (walk options o c) (before ++ signs options o c) := by
  fun_induction Outline.walk options o c generalizing before with
  | case1 o c o' next hflow ih =>
    have hnext := hstep h (steps options o c)
    rw [hflow] at hnext
    rw [signs, hflow, ← List.append_assoc]
    exact ih hnext
  | case2 o c o' hflow =>
    have hend := hstep h (steps options o c)
    rw [hflow] at hend
    rw [signs, hflow, List.append_nil]
    exact hend

/-- What every step keeps, from the start of a document on. -/
theorem ofText_meets {I : Outline → Cursor → List Sign → Prop} {F : Outline → List Sign → Prop}
    (hstep : ∀ {o : Outline} {c : Cursor} {before signs : List Sign} {flow : Flow c},
      I o c before → Steps options o c signs flow →
      flow.Meets (fun o d => I o d (before ++ signs)) fun o => F o (before ++ signs))
    {text : List Char} {log : Log}
    (h : ∀ first : Cursor, (⟨.start, text⟩ : Cursor).Reaches first →
      I (initial ⟨.start, text⟩ log) first []) :
    F (ofText options text log) (signsOfText options text log) := by
  let doc : Cursor := ⟨.start, text⟩
  have hfirst : doc.Reaches
      (if text.head? = some EncodingIssue.byteOrderMark then doc.advance else doc) := by
    split
    · exact Cursor.reaches_advance doc
    · exact .refl doc
  exact walk_meets hstep (h _ hfirst)

/-! ## What a step leaves alone -/

/-- A line end in front of code ends a header and the statement. -/
theorem beforeCode_cases (o : Outline) (isBrace : Bool) (c : Cursor) :
    o.lineSign? isBrace = some .ending ∧ o.beforeCode isBrace c =
      { o.changeStack c o.stack.endHeader.2 with newline := false, head := .start } ∨
    o.lineSign? isBrace = none ∧ o.beforeCode isBrace c = { o with newline := false } := by
  unfold lineSign? beforeCode
  split
  · exact .inl ⟨rfl, rfl⟩
  · exact .inr ⟨rfl, rfl⟩

theorem log_beforeCode (o : Outline) (isBrace : Bool) (c : Cursor) :
    (o.beforeCode isBrace c).log = o.log := by
  obtain ⟨-, hbefore⟩ | ⟨-, hbefore⟩ := o.beforeCode_cases isBrace c
  · rw [hbefore]
    exact log_changeStack _ _ _
  · rw [hbefore]

/-- At the brace of an origin block its entry lies on top of what was open before. -/
theorem openOrigin_frame (o : Outline) (c brace : Cursor) :
    ∃ e : Entry, e.context = .originBody ∧
      (o.openOrigin c brace).stack = ⟨e :: o.stack.entries, o.stack.lastScope + 1⟩ ∧
      (o.openOrigin c brace).log = o.log := by
  obtain ⟨hstack, -, -, hlog⟩ := changeStack_frame { o with head := .other } c
    (o.stack.enter .originBody .header c.position)
  unfold openOrigin
  simp only [hstack]
  exact ⟨_, rfl, rfl, hlog⟩

/-- A block that is closed keeps what is open, and logs nothing. -/
theorem Embeds.of_closed {context : Context} {flow : Flow c}
    (hflow : Embeds options o context c flow)
    (hclosed : Sign.isOpenBlock (.block context c) = false) :
    ∃ o' next, flow = .onward o' next ∧
      o'.stack = ⟨o.stack.entries, o.stack.lastScope + 1⟩ ∧ o'.log = o.log := by
  cases hflow with
  | unclosed unmatched => simp [Sign.isOpenBlock, unmatched, Except.isOk, Except.toBool] at hclosed
  | blank closed => exact ⟨_, _, rfl, rfl, rfl⟩
  | body closed trimmed nonempty =>
    refine ⟨_, _, rfl, rfl, ?_⟩
    simp only [log_emitBody, emitRun, log_emit]

theorem emitted_beforeCode {p : Fragment → Prop} (h : ∀ f ∈ o.emitted, p f)
    (hrun : ∀ id content start stop, p (o.run.fragment false id content start stop))
    (isBrace : Bool) (c : Cursor) : ∀ f ∈ (o.beforeCode isBrace c).emitted, p f := by
  obtain ⟨-, hbefore⟩ | ⟨-, hbefore⟩ := o.beforeCode_cases isBrace c
  · rw [hbefore]
    exact emitted_changeStack h hrun c _
  · rw [hbefore]
    exact h

/-! ## Where the signs stand -/

/-- A character of code makes at most one sign, whose brace stands there or ahead. -/
theorem Acts.stand {signs : List Sign} {flow : Flow c} (hflow : Acts options o c signs flow) :
    signs = [] ∨ ∃ s, signs = [s] ∧ (s.position? = none ∨
      ∃ d, c.Reaches d ∧ s.StandsAt d ∧ flow.Meets (fun _ e => d.StrictlyReaches e) fun _ => True) := by
  have hembeds : ∀ {o : Outline} {context : Context} {d : Cursor} {flow : Flow d},
      Embeds options o context d flow →
      flow.Meets (fun _ e => d.StrictlyReaches e) fun _ => True := by
    intro o context d flow h
    cases flow with
    | onward o' next => exact next.strictlyReaches
    | stop o' => trivial
  cases hflow with
  | pass next begins => exact .inl rfl
  | openBody after brace opened =>
    exact .inr ⟨_, rfl, .inr ⟨c, .refl c, .opening brace, after.strictlyReaches⟩⟩
  | openElement after brace noHeader kind =>
    exact .inr ⟨_, rfl, .inr ⟨c, .refl c, .opening brace, after.strictlyReaches⟩⟩
  | closeBrace after brace =>
    exact .inr ⟨_, rfl, .inr ⟨c, .refl c, .closing brace, after.strictlyReaches⟩⟩
  | semicolon after => exact .inr ⟨_, rfl, .inl rfl⟩
  | header next start declared => exact .inr ⟨_, rfl, .inl rfl⟩
  | block after keyword brace embeds =>
    exact .inr ⟨_, rfl, .inr ⟨c, .refl c, .block brace, hembeds embeds⟩⟩
  | originStop brace start isRaw isBrace embeds =>
    exact .inr ⟨_, rfl, .inr ⟨_, brace.reaches, .block isBrace, trivial⟩⟩
  | origin brace start isRaw isBrace embeds =>
    exact .inr ⟨_, rfl, .inr ⟨_, brace.reaches, .block isBrace, hembeds embeds⟩⟩

/-- The signs met so far stand in the document, in front of the cursor. -/
structure Passed (doc c : Cursor) (signs : List Sign) : Prop where
  reaches : doc.Reaches c
  stand : Sign.Stand doc signs
  behind : ∀ pos ∈ signs.filterMap Sign.position?, pos.offset < c.offset

theorem Passed.onward {doc : Cursor} {signs : List Sign} (h : Passed doc c signs)
    (hcd : c.Reaches d) : Passed doc d signs :=
  ⟨h.reaches.trans hcd, h.stand,
    fun pos hpos => Nat.lt_of_lt_of_le (h.behind pos hpos) hcd.offset_le⟩

theorem Passed.concat_none {doc : Cursor} {signs : List Sign} {s : Sign} (h : Passed doc c signs)
    (hs : s.position? = none) : Passed doc c (signs ++ [s]) := by
  refine ⟨h.reaches, h.stand.concat_none hs, ?_⟩
  rw [List.filterMap_append, List.filterMap_cons_none hs, List.filterMap_nil, List.append_nil]
  exact h.behind

theorem Passed.concat {doc e : Cursor} {signs : List Sign} {s : Sign} (h : Passed doc c signs)
    (hs : s.StandsAt c) (hce : c.StrictlyReaches e) : Passed doc e (signs ++ [s]) := by
  refine ⟨h.reaches.trans hce.reaches, h.stand.concat h.behind h.reaches hs, ?_⟩
  rw [List.filterMap_append, List.filterMap_cons_some hs.position, List.filterMap_nil]
  intro pos hpos
  rcases List.mem_append.1 hpos with hpos | hpos
  · exact Nat.lt_trans (h.behind pos hpos) hce.offset_lt
  · rw [List.mem_singleton.1 hpos]
    exact hce.offset_lt

theorem Passed.acts {doc : Cursor} {before signs : List Sign} {flow : Flow c}
    (h : Passed doc c before) (hflow : Acts options o c signs flow) :
    flow.Meets (fun _ d => Passed doc d (before ++ signs))
      fun _ => Sign.Stand doc (before ++ signs) := by
  obtain rfl | ⟨s, rfl, hnone | ⟨d, hcd, hs, hmeets⟩⟩ := hflow.stand
  · rw [List.append_nil]
    cases flow with
    | onward o' next => exact h.onward next.reaches
    | stop o' => exact h.stand
  · have h' := h.concat_none hnone
    cases flow with
    | onward o' next => exact h'.onward next.reaches
    | stop o' => exact h'.stand
  · have h' := h.onward hcd
    cases flow with
    | onward o' next => exact h'.concat hs hmeets
    | stop o' => exact h'.stand.concat h'.behind h'.reaches hs

theorem Passed.steps {doc : Cursor} {before signs : List Sign} {flow : Flow c}
    (h : Passed doc c before) (hflow : Steps options o c signs flow) :
    flow.Meets (fun _ d => Passed doc d (before ++ signs))
      fun _ => Sign.Stand doc (before ++ signs) := by
  have hline : ∀ isBrace, Passed doc c (before ++ (o.lineSign? isBrace).toList) := by
    intro isBrace
    obtain ⟨hsign, -⟩ | ⟨hsign, -⟩ := o.beforeCode_cases isBrace c
    · rw [hsign]
      exact h.concat_none rfl
    · rw [hsign, Option.toList_none, List.append_nil]
      exact h
  have hstay : ∀ next : c.Later, Passed doc next.cursor (before ++ []) := by
    intro next
    rw [List.append_nil]
    exact h.onward next.reaches
  cases hflow with
  | finish atEnd => exact (List.append_nil before).symm ▸ h.stand
  | gap next => exact hstay next
  | @openComment issue next atEnd comment => exact hstay next
  | @openString issue next atEnd string => exact (hline false).onward next.reaches
  | code acts =>
    rw [← List.append_assoc]
    exact (hline _).acts acts

/-- The signs of a document stand in it, in order. -/
theorem signsOfText_stand (options : Options) (text : List Char) (log : Log) :
    Sign.Stand ⟨.start, text⟩ (signsOfText options text log) :=
  ofText_meets (I := fun _ c signs => Passed ⟨.start, text⟩ c signs)
    (F := fun _ signs => Sign.Stand ⟨.start, text⟩ signs) (fun h hflow => h.steps hflow)
    fun _ hfirst => ⟨hfirst, ⟨by simp, .nil⟩, by simp⟩

end Outline

end Polyglot
