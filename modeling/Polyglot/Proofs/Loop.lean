-- SUMMARY: What holds of the structural pass between any two of its steps.
import Polyglot.Proofs.Body
import Polyglot.Proofs.LineEnd

/-!
# Between two steps

The structural pass keeps a stack, a run and a mark, and each of its operations changes
some of them. Between two steps they fit together (`Outline.Consistent`): the run has the
innermost context, at most the innermost entry is a header, and then nothing begins a
statement, and the run begins where the last fragment stops.

A step that reads a block exits what it entered. The answers of these exits are not looked
at. They are always the entry that was pushed for the block (`Outline.ExitCall.Pops`), and the
stack that the step goes on with is what they leave (`Outline.ExitsWell`).
-/

namespace Polyglot

/-! ## Headers on the stack -/

namespace Stack

variable {s t : Stack}

/-- Only the innermost entry may be a header. -/
def Nested (s : Stack) : Prop := ∀ e ∈ s.entries.tail, e.kind = .brace

/-- No header waits for its body. -/
def Braced (s : Stack) : Prop := ∀ e ∈ s.entries, e.kind = .brace

theorem Braced.nested (h : s.Braced) : s.Nested := fun e he => h e (List.mem_of_mem_tail he)

theorem Braced.enter (h : s.Braced) (context : Context) (kind : EntryKind) (pos : Position) :
    (s.enter context kind pos).Nested := h

theorem Braced.enter_brace (h : s.Braced) (context : Context) (pos : Position) :
    (s.enter context .brace pos).Braced := List.forall_mem_cons.2 ⟨rfl, h⟩

theorem Nested.braced (h : s.Nested) (htop : ∀ e, s.top = some e → e.kind = .brace) : s.Braced := by
  obtain ⟨entries, lastScope⟩ := s
  cases entries with
  | nil => exact fun e he => by cases he
  | cons e below => exact List.forall_mem_cons.2 ⟨htop e rfl, h⟩

/-- What lies below the innermost entry is free of headers. -/
theorem Nested.of_suffix_tail (h : s.Nested) (hsuffix : t.entries <:+ s.entries.tail) : t.Braced :=
  fun e he => h e (hsuffix.subset he)

theorem Nested.endHeader (h : s.Nested) : s.endHeader.2.Braced := by
  obtain ⟨entries, lastScope⟩ := s
  cases entries with
  | nil => exact fun e he => by cases he
  | cons e below =>
    simp only [Stack.endHeader]
    split
    · exact h
    · next hbrace =>
      refine Nested.braced h fun x hx => ?_
      obtain rfl : e = x := Option.some.inj hx
      cases hkind : e.kind with
      | brace => rfl
      | header => exact absurd hkind hbrace

theorem Nested.closeBrace (h : s.Nested) : s.closeBrace.2.Braced := by
  obtain ⟨entries, lastScope⟩ := s
  cases entries with
  | nil => exact fun e he => by cases he
  | cons e below =>
    simp only [Stack.closeBrace]
    split
    · exact h
    · split
      · next hseek => exact h.of_suffix_tail (seek_suffix hseek)
      · exact h.of_suffix_tail List.nil_suffix

theorem Nested.openHeaderBody (h : s.Nested) {pos : Position}
    (hopen : s.openHeaderBody pos = some t) : t.Braced := by
  obtain ⟨e, below, lastScope, rfl, rfl⟩ := openHeaderBody_some hopen
  exact List.forall_mem_cons.2 ⟨rfl, h⟩

end Stack

namespace Outline

variable {options : Options} {o o' : Outline} {c d : Cursor}

/-! ## The mark -/

/-- Where the fragment emitted last stops, or the start of the document. -/
def lastStop (o : Outline) : Position := (o.emitted.head?.map Fragment.stop).getD .start

/-- The run begins where the last fragment stops, and its text lies in front of the cursor. -/
structure Marked (o : Outline) (c : Cursor) : Prop where
  ahead : o.mark.Reaches c
  mark : o.mark.position = o.lastStop

theorem Marked.onward (h : o.Marked c) (hcd : c.Reaches d) : o.Marked d :=
  ⟨h.ahead.trans hcd, h.mark⟩

theorem Marked.of_eq (h : o.Marked c) (hmark : o'.mark = o.mark)
    (hemitted : o'.emitted = o.emitted) : o'.Marked c := by
  obtain ⟨ahead, mark⟩ := h
  unfold lastStop at mark
  rw [← hmark] at ahead mark
  rw [← hemitted] at mark
  exact ⟨ahead, mark⟩

theorem lastStop_emit_text (o : Outline) (frame : Frame) (degraded : Bool) {content : List Char}
    (h : c.Consumes content d) (hne : content ≠ []) :
    (o.emit frame degraded c d).lastStop = d.position := by
  rw [emit_text o frame degraded h hne]
  rfl

/-- Behind the run that ends at `d` the last fragment stops at `d`, also if the run is empty. -/
theorem Marked.lastStop_emitRun (h : o.Marked c) (hmark : o.mark.Reaches d) :
    (o.emitRun d).lastStop = d.position := by
  obtain ⟨content, hread⟩ := hmark
  by_cases hne : content = []
  · subst hne
    rw [emitRun, emit_nil o o.run false hread, ← h.mark, hread.eq_of_nil]
  · exact lastStop_emit_text o o.run false hread hne

theorem Marked.changeStack (h : o.Marked c) (hcd : c.Reaches d) (stack : Stack) :
    (o.changeStack d stack).Marked d := by
  by_cases hcontext : stack.current = o.run.context
  · rw [changeStack_of_eq o d hcontext]
    exact (h.onward hcd).of_eq rfl rfl
  · rw [changeStack_of_ne o d hcontext]
    exact ⟨.refl d, (h.lastStop_emitRun (h.ahead.trans hcd)).symm⟩

/-- A stretch list ends with the stretch from the last cut. -/
theorem exists_last_stretch (c : Cursor) (cuts : List Cursor) :
    ∃ before last, c.stretches cuts = before ++ [(last, c.toEnd)] ∧ last ∈ c :: cuts := by
  unfold Cursor.stretches
  generalize c.toEnd = e
  induction cuts generalizing c with
  | nil => exact ⟨[], c, rfl, List.mem_cons_self⟩
  | cons x cuts ih =>
    obtain ⟨before, last, hlast, hmem⟩ := ih x
    exact ⟨(c, x) :: before, last, congrArg ((c, x) :: ·) hlast, List.mem_cons_of_mem c hmem⟩

/-- Where a local script is cut, some of its text follows. -/
theorem cut_inside {within x : Cursor} (h : x ∈ statementCuts within) :
    within.Reaches x ∧ x.rest ≠ [] := by
  obtain ⟨s, cuts, hruns, -⟩ := Cursor.exists_runs_of_mem_statementCuts h
  obtain ⟨t, e, found, -, hfound, -⟩ := Cursor.exists_run_statementCuts within
  rw [hfound] at h
  exact ⟨hruns.reaches.1, by simpa [Cursor.atEnd] using (List.mem_filter.1 h).2⟩

/-- A body is emitted up to its end, whole or in parts. -/
theorem lastStop_emitBody (options : Options) (o : Outline) (frame : Frame) (body : Cursor)
    {text : List Char} (hne : text ≠ []) :
    (emitBody options o frame body text).lastStop = body.position.advanceOver text := by
  let within : Cursor := ⟨body.position, text⟩
  have hlast : ∀ cuts : List Cursor, (∀ x ∈ cuts, within.Reaches x ∧ x.rest ≠ []) →
      ((within.stretches cuts).foldl (fun o cd => o.emit frame false cd.1 cd.2) o).lastStop =
        body.position.advanceOver text := by
    intro cuts hcuts
    obtain ⟨before, last, hsplit, hmem⟩ := exists_last_stretch within cuts
    obtain ⟨hreach, hmore⟩ : within.Reaches last ∧ last.rest ≠ [] :=
      List.forall_mem_cons.2 ⟨⟨.refl within, hne⟩, hcuts⟩ last hmem
    have hread : last.Consumes last.rest within.toEnd :=
      hreach.toEnd_eq ▸ ⟨by simp [Cursor.toEnd], rfl⟩
    rw [hsplit, List.foldl_concat]
    exact lastStop_emit_text _ frame false hread hmore
  unfold emitBody
  simp only
  split
  · exact hlast _ fun x hx => cut_inside hx
  · exact hlast [] (by simp)

/-! ## Blocks -/

/-- Behind a block the context is the one around it, and the run begins at the end of its text. -/
theorem Marked.embeds {context : Context} {flow : Flow c} (h : o.Marked c)
    (hrun : o.run.context = o.stack.current) (hflow : Embeds options o context c flow) :
    flow.Meets (fun o' d => o'.Marked d ∧ o'.run.context = o.stack.current ∧
      o'.stack = ⟨o.stack.entries, o.stack.lastScope + 1⟩ ∧ o'.head = .start) fun _ => True := by
  cases hflow with
  | unclosed => trivial
  | @blank close closed => exact ⟨(h.onward close.advance.reaches).of_eq rfl rfl, hrun, rfl, rfl⟩
  | @body close text closed trimmed nonempty =>
    obtain ⟨text', space, htext, hread, hrest, -⟩ := Cursor.blockText_of_matchingClose closed rfl
    obtain rfl : text' = text := htext.symm.trans trimmed
    generalize c.advance.skipBlank = body at *
    let behind : Cursor := ⟨body.position.advanceOver text', space ++ close.cursor.rest⟩
    have hbefore : body.Consumes text' behind := ⟨by rw [hread.1, List.append_assoc], rfl⟩
    have hspace : behind.Reaches close.cursor :=
      ⟨space, rfl, by rw [hread.2, Position.advanceOver_append]⟩
    have hend : close.cursor.Reaches close.advance.cursor := close.cursor.reaches_advance
    rw [Cursor.skip_of_consumes hbefore]
    exact ⟨⟨hspace.trans hend, (lastStop_emitBody options _ _ body nonempty).symm⟩, rfl, rfl, rfl⟩

/-- At the brace of an origin block its entry lies on top, opened at this brace. -/
theorem stack_openOrigin (o : Outline) (c brace : Cursor) : (o.openOrigin c brace).stack =
    ⟨⟨.originBody, .brace, o.stack.lastScope + 1, brace.position⟩ :: o.stack.entries,
      o.stack.lastScope + 1⟩ := by
  obtain ⟨hstack, -⟩ := changeStack_frame { o with head := .other } c
    (o.stack.enter .originBody .header c.position)
  unfold openOrigin
  simp only [hstack]
  rfl

theorem run_openOrigin (o : Outline) (c brace : Cursor) :
    (o.openOrigin c brace).run.context = .originBody :=
  run_changeStack { o with head := .other } c (o.stack.enter .originBody .header c.position)

theorem Marked.openOrigin (h : o.Marked c) (brace : Cursor) : (o.openOrigin c brace).Marked c := by
  have hother : ({ o with head := .other } : Outline).Marked c := h.of_eq rfl rfl
  exact (hother.changeStack (.refl c) (o.stack.enter .originBody .header c.position)).of_eq rfl rfl

/-! ## The invariant -/

/-- What holds between two steps, with the cursor at `c`. -/
structure Consistent (o : Outline) (c : Cursor) : Prop where
  run : o.run.context = o.stack.current
  /-- Below the innermost entry there are braces only. -/
  nested : ∀ e ∈ o.stack.entries.tail, e.kind = .brace
  /-- While a header waits, nothing begins a statement. -/
  head : ∀ e, o.stack.top = some e → e.kind = .header → o.head = .other
  marked : o.Marked c

/-- Where something begins a statement, or a block keyword stands, no header waits. -/
theorem Consistent.braced (h : o.Consistent c) (hhead : o.head ≠ .other) : o.stack.Braced := by
  refine Stack.Nested.braced h.nested fun e he => ?_
  cases hkind : e.kind with
  | brace => rfl
  | header => exact absurd (h.head e he hkind) hhead

/-- With no header on the stack there is nothing more to show of it. -/
theorem consistent_of_braced (hrun : o.run.context = o.stack.current) (hstack : o.stack.Braced)
    (hmarked : o.Marked c) : o.Consistent c := by
  refine ⟨hrun, hstack.nested, fun e he hheader => ?_, hmarked⟩
  have hbrace := hstack e (List.mem_of_mem_head? he)
  exact absurd (hbrace.symm.trans hheader) EntryKind.noConfusion

/-- The invariant is not about line ends and the log. -/
theorem Consistent.of_eq (h : o.Consistent c) (hstack : o'.stack = o.stack)
    (hrun : o'.run = o.run) (hhead : o'.head = o.head) (hmark : o'.mark = o.mark)
    (hemitted : o'.emitted = o.emitted) : o'.Consistent c := by
  obtain ⟨run, nested, head, marked⟩ := h
  rw [← hstack] at run nested head
  rw [← hrun] at run
  rw [← hhead] at head
  exact ⟨run, nested, head, marked.of_eq hmark hemitted⟩

theorem Consistent.onward (h : o.Consistent c) (hcd : c.Reaches d) : o.Consistent d :=
  ⟨h.run, h.nested, h.head, h.marked.onward hcd⟩

/-- To change the stack to one without headers keeps the invariant, whatever comes next. -/
theorem Consistent.changeStack (h : o.Consistent c) (hcd : c.Reaches d) {stack : Stack}
    (hstack : stack.Braced) (head : Head) (newline : Bool) :
    ({ o.changeStack d stack with head := head, newline := newline } : Outline).Consistent d := by
  obtain ⟨hsame, -⟩ := changeStack_frame o d stack
  have hrun : (o.changeStack d stack).run.context = (o.changeStack d stack).stack.current := by
    rw [run_changeStack, hsame]
  exact consistent_of_braced hrun (hsame.symm ▸ hstack)
    ((h.marked.changeStack hcd stack).of_eq rfl rfl)

theorem Consistent.beforeCode (h : o.Consistent c) (isBrace : Bool) :
    (o.beforeCode isBrace c).Consistent c := by
  obtain ⟨-, hbefore⟩ | ⟨-, hbefore⟩ := o.beforeCode_cases isBrace c
  · rw [hbefore]
    exact h.changeStack (.refl c) (Stack.Nested.endHeader h.nested) .start false
  · rw [hbefore]
    exact h.of_eq rfl rfl rfl rfl rfl

theorem Consistent.closeBrace (h : o.Consistent c) (after : c.Later) :
    (o.closeBrace c after).Consistent after.cursor := by
  have hchange := h.changeStack after.reaches (Stack.Nested.closeBrace h.nested) .start
    (o.changeStack after.cursor o.stack.closeBrace.2).newline
  unfold Outline.closeBrace
  simp only
  split
  · exact hchange
  · exact hchange.of_eq rfl rfl rfl rfl rfl
  · exact hchange.of_eq rfl rfl rfl rfl rfl

theorem Consistent.acts {signs : List Sign} {flow : Flow c} (h : o.Consistent c)
    (hflow : Acts options o c signs flow) :
    flow.Meets (fun o' d => o'.Consistent d) fun _ => True := by
  have hstart : ∀ {o : Outline}, o.head = .start → o.head ≠ .other :=
    fun hhead hother => Head.noConfusion (hhead.symm.trans hother)
  cases hflow with
  | @pass head next begins =>
    refine ⟨h.run, h.nested, fun e he hheader => ?_, (h.marked.onward next.reaches).of_eq rfl rfl⟩
    rcases begins with hbegin | rfl
    · exact absurd (h.head e he hheader) (hstart hbegin)
    · rfl
  | @openBody stack after brace opened =>
    obtain ⟨e, below, lastScope, hbefore, hafter⟩ := Stack.openHeaderBody_some opened
    refine consistent_of_braced ?_ (Stack.Nested.openHeaderBody h.nested opened)
      ((h.marked.onward after.reaches).of_eq rfl rfl)
    -- the body has the context of its header
    rw [h.run, hbefore, hafter]
    rfl
  | @openElement context after brace noHeader kind =>
    have htop : ∀ e, o.stack.top = some e → e.kind = .brace := by
      intro e he
      cases hkind : e.kind with
      | brace => rfl
      | header =>
        obtain ⟨below, hentries⟩ := List.head?_eq_some_iff.1 he
        simp [Stack.openHeaderBody, hentries, hkind] at noHeader
    have hbraced := Stack.Nested.braced h.nested htop
    exact h.changeStack after.reaches (hbraced.enter_brace context c.position) .start
      (o.changeStack after.cursor _).newline
  | closeBrace after brace => exact h.closeBrace after
  | semicolon after =>
    exact h.changeStack after.reaches (Stack.Nested.endHeader h.nested) .start
      (o.changeStack after.cursor _).newline
  | @header context next start declared =>
    obtain ⟨hstack, hhead, -⟩ := changeStack_frame { o with head := .other } c
      (o.stack.enter context .header c.position)
    have hother : ({ o with head := .other } : Outline).Marked c := h.marked.of_eq rfl rfl
    refine ⟨?_, ?_, fun _ _ _ => hhead, (hother.changeStack (.refl c) _).onward next.reaches⟩
    · rw [run_changeStack, hstack]
    · rw [hstack]
      exact (h.braced (hstart start)).enter context .header c.position
  | block after keyword brace embeds =>
    have hbraced := h.braced fun hother => Head.noConfusion (keyword.symm.trans hother)
    refine (h.marked.embeds h.run embeds).imp fun o' d hmeets => ?_
    obtain ⟨hmarked, hrun, hstack, -⟩ := hmeets
    exact consistent_of_braced (by rw [hrun, hstack]; rfl) (hstack ▸ hbraced) hmarked
  | originStop => trivial
  | @origin raw o' brace next start isRaw isBrace embeds =>
    have hopened := (h.marked.openOrigin brace.cursor).onward brace.reaches
    have hrun : (o.openOrigin c brace.cursor).run.context =
        (o.openOrigin c brace.cursor).stack.current := by
      rw [run_openOrigin, stack_openOrigin]
      rfl
    obtain ⟨hmarked, -, hstack, -⟩ := hopened.embeds hrun embeds
    have hexit : (o'.stack.exit .originBody).2.Braced := by
      rw [hstack, stack_openOrigin, Stack.exit_top ⟨.originBody, .brace, _, _⟩]
      exact h.braced (hstart start)
    obtain ⟨hafter, -⟩ := changeStack_frame o' next.cursor (o'.stack.exit .originBody).2
    refine consistent_of_braced ?_ (hafter.symm ▸ hexit) (hmarked.changeStack (.refl _) _)
    rw [run_changeStack, hafter]

/-- Every step keeps the invariant. -/
theorem Consistent.steps {signs : List Sign} {flow : Flow c} (h : o.Consistent c)
    (hflow : Steps options o c signs flow) :
    flow.Meets (fun o' d => o'.Consistent d) fun _ => True := by
  cases hflow with
  | finish => trivial
  | gap next => exact (h.onward next.reaches).of_eq rfl rfl rfl rfl rfl
  | @openComment issue next => exact (h.onward next.reaches).of_eq rfl rfl rfl rfl rfl
  | @openString issue next =>
    exact ((h.beforeCode false).onward next.reaches).of_eq rfl rfl rfl rfl rfl
  | code acts => exact (h.beforeCode _).acts acts

theorem Consistent.walks {p : Outline} (h : o.Consistent c) (hwalk : Walks options o c p d) :
    p.Consistent d := by
  induction hwalk with
  | refl => exact h
  | @step o _ _ c _ _ onward _ ih =>
    have hmeets := h.steps (Outline.steps options o c)
    rw [onward] at hmeets
    exact ih hmeets

theorem consistent_initial (text : List Char) (log : Log) :
    (initial ⟨.start, text⟩ log).Consistent ⟨.start, text⟩ :=
  consistent_of_braced rfl (fun e he => by cases he) ⟨.refl _, rfl⟩

/-! ## Exits -/

/-- A call of `exit`, with the entry that was pushed for it and what this one was pushed on. -/
structure ExitCall where
  stack : Stack
  context : Context
  pushed : Entry
  around : List Entry

/-- The call is answered with the entry that was pushed for it, and removes just this one. -/
structure ExitCall.Pops (call : ExitCall) : Prop where
  ok : (call.stack.exit call.context).1 = .ok call.pushed
  removed : call.stack.entries = call.pushed :: call.around
  kept : (call.stack.exit call.context).2 = ⟨call.around, call.stack.lastScope⟩

theorem ExitCall.pops_of_eq {call : ExitCall}
    (hentries : call.stack.entries = call.pushed :: call.around)
    (hcontext : call.pushed.context = call.context) : call.Pops := by
  obtain ⟨⟨entries, lastScope⟩, context, pushed, around⟩ := call
  obtain rfl : entries = pushed :: around := hentries
  obtain rfl : pushed.context = context := hcontext
  exact ⟨by simp [Stack.exit], rfl, Stack.exit_top pushed around lastScope⟩

/-- The exit at the end of an embedded block, which is reached if the block is closed. -/
def blockExits (o : Outline) (context : Context) (c : Cursor) : List ExitCall :=
  match c.matchingClose context.guardSet with
  | .error _ => []
  | .ok _ =>
    [{ stack := o.stack.enter context .brace c.position
       context := context
       pushed := ⟨context, .brace, o.stack.lastScope + 1, c.position⟩
       around := o.stack.entries }]

/-- The exits of a declaration in brackets: those of an origin block and of its body. -/
def declarationExits (options : Options) (o : Outline) (c : Cursor) {c' : Cursor}
    (after : c'.Later) : List ExitCall :=
  match Cursor.declaration? after with
  | none => []
  | some (context, header) =>
    match if context = .originBody then Cursor.originBody? header else none with
    | none => []
    | some (raw, brace) =>
      let opened := o.openOrigin c brace.cursor
      opened.blockExits raw brace.cursor ++
        match embedded options opened raw brace.cursor with
        | .stop _ => []
        | .onward o' _ =>
          [{ stack := o'.stack
             context := context
             pushed := ⟨context, .brace, o.stack.lastScope + 1, brace.cursor.position⟩
             around := o.stack.entries }]

/-- All calls of `exit` in a step at `c`. -/
def exitsAt (options : Options) (o : Outline) (c : Cursor) : List ExitCall :=
  match c.front (templateSet options) with
  | .code ch after =>
    if isBlank ch then []
    else
      let o := o.beforeCode (ch = '{') c
      match ch with
      | '{' =>
        match o.head with
        | .keyword k => o.blockExits (k.context options.rootAsElement o.stack.current) c
        | _ => []
      | '}' => []
      | ';' => []
      | _ => if o.head = .start && ch = '[' then o.declarationExits options c after else []
  | _ => []

theorem pops_blockExits (o : Outline) (context : Context) (c : Cursor) :
    ∀ call ∈ o.blockExits context c, call.Pops := by
  unfold blockExits
  split
  · simp
  · intro call hcall
    obtain rfl := List.mem_singleton.1 hcall
    exact ExitCall.pops_of_eq rfl rfl

theorem pops_declarationExits (options : Options) (o : Outline) (c : Cursor) {c' : Cursor}
    (after : c'.Later) : ∀ call ∈ o.declarationExits options c after, call.Pops := by
  unfold declarationExits
  cases hdecl : Cursor.declaration? after with
  | none => simp
  | some found =>
    obtain ⟨context, header⟩ := found
    simp only
    cases horigin : if context = .originBody then Cursor.originBody? header else none with
    | none => simp
    | some body =>
      obtain ⟨raw, brace⟩ := body
      obtain ⟨rfl, -⟩ : context = .originBody ∧ Cursor.originBody? header = some (raw, brace) := by
        simpa using horigin
      intro call hcall
      rcases List.mem_append.1 hcall with hcall | hcall
      · exact pops_blockExits _ raw brace.cursor call hcall
      · cases hflow : embedded options (o.openOrigin c brace.cursor) raw brace.cursor with
        | stop o' => simp [hflow] at hcall
        | onward o' next =>
          -- the body of the origin leaves the entry of the origin on top
          have hentries : o'.stack.entries = (o.openOrigin c brace.cursor).stack.entries := by
            have hembeds := embeds options (o.openOrigin c brace.cursor) raw brace.cursor
            rw [hflow] at hembeds
            cases hembeds <;> rfl
          simp only [hflow, List.mem_singleton] at hcall
          subst hcall
          exact ExitCall.pops_of_eq (hentries.trans (by rw [stack_openOrigin])) rfl

/-- Each exit of a step removes what was pushed for it, in whatever state the pass is. -/
theorem pops_exitsAt (options : Options) (o : Outline) (c : Cursor) :
    ∀ call ∈ o.exitsAt options c, call.Pops := by
  unfold exitsAt
  split
  · next ch after _ =>
    split
    · simp
    · simp only
      split
      · split
        · exact pops_blockExits _ _ c
        · simp
      · simp
      · simp
      · split
        · exact pops_declarationExits options _ c after
        · simp
  · simp

/-- What a block leaves on the stack is what its exit leaves there. -/
theorem stack_blockExits {context : Context} {call : ExitCall} {next : c.Later}
    (hcall : (o.blockExits context c).getLast? = some call)
    (hflow : embedded options o context c = .onward o' next) :
    o'.stack = (call.stack.exit call.context).2 := by
  unfold blockExits at hcall
  unfold embedded embeddedBy at hflow
  cases hclose : c.matchingClose context.guardSet with
  | error unbalanced => simp [hclose] at hcall
  | ok close =>
    simp only [hclose] at hcall hflow
    obtain rfl := Option.some.inj hcall
    cases hflow
    rfl

theorem declaration_origin {after header brace : c.Later} {raw : Context}
    (declared : Cursor.declaration? after = some (.originBody, header))
    (found : Cursor.originBody? header = some (raw, brace)) :
    declaration options o c after =
      match embedded options (o.openOrigin c brace.cursor) raw brace.cursor with
      | .stop o' => .stop o'
      | .onward o' next => .onward (o'.changeStack next.cursor (o'.stack.exit .originBody).2)
          (next.since brace.reaches) := by
  unfold declaration
  rw [declared]
  simp only [if_true, found]
  rfl

theorem stack_declarationExits {after : c.Later} {call : ExitCall} {next : c.Later}
    (hcall : (o.declarationExits options c after).getLast? = some call)
    (hflow : declaration options o c after = .onward o' next) :
    o'.stack = (call.stack.exit call.context).2 := by
  unfold declarationExits at hcall
  cases hdecl : Cursor.declaration? after with
  | none => simp [hdecl] at hcall
  | some declared =>
    obtain ⟨context, header⟩ := declared
    simp only [hdecl] at hcall
    cases horigin : if context = .originBody then Cursor.originBody? header else none with
    | none => simp [horigin] at hcall
    | some body =>
      obtain ⟨raw, brace⟩ := body
      obtain ⟨rfl, hfound⟩ : context = .originBody ∧
          Cursor.originBody? header = some (raw, brace) := by simpa using horigin
      rw [if_pos rfl, hfound] at hcall
      rw [declaration_origin hdecl hfound] at hflow
      cases hembedded : embedded options (o.openOrigin c brace.cursor) raw brace.cursor with
      | stop o₁ => simp [hembedded] at hflow
      | onward o₁ next₁ =>
        simp only [hembedded, List.getLast?_concat] at hcall hflow
        obtain rfl := Option.some.inj hcall
        cases hflow
        exact (changeStack_frame o₁ next₁.cursor _).1

/-- A step that reads a block goes on with the stack that its last exit leaves. -/
theorem stack_exitsAt {call : ExitCall} {next : c.Later}
    (hcall : (o.exitsAt options c).getLast? = some call)
    (hstep : o.step options c = .onward o' next) :
    o'.stack = (call.stack.exit call.context).2 := by
  unfold exitsAt at hcall
  unfold step at hstep
  cases hfront : c.front (templateSet options) with
  | code ch after =>
    simp only [hfront] at hcall hstep
    by_cases hblank : isBlank ch
    · simp [hblank] at hcall
    · simp only [hblank, Bool.false_eq_true, if_false] at hcall hstep
      unfold code at hstep
      simp only at hcall hstep
      generalize o.beforeCode (ch = '{') c = o at hcall hstep
      split at hcall
      · unfold openBrace at hstep
        cases hhead : o.head with
        | keyword k =>
          simp only [hhead] at hcall hstep
          exact stack_blockExits hcall hstep
        | start | other => simp [hhead] at hcall
      · simp at hcall
      · simp at hcall
      · next hopen hclose hsemi =>
        split at hcall
        · next hbracket =>
          simp only [hbracket, if_true] at hstep
          exact stack_declarationExits hcall hstep
        · simp at hcall
  | _ => simp [hfront] at hcall

/-- What an origin block exits comes behind what its body has exited. -/
theorem isChain_declarationExits (after : c.Later)
    (hblock : ∀ (o : Outline) (context : Context) (c : Cursor),
      (o.blockExits context c).IsChain fun call call' =>
        call'.stack = (call.stack.exit call.context).2) :
    (o.declarationExits options c after).IsChain fun call call' =>
      call'.stack = (call.stack.exit call.context).2 := by
  unfold declarationExits
  split
  · exact .nil
  · split
    · exact .nil
    · next raw brace _ =>
      simp only
      cases hembedded : embedded options (o.openOrigin c brace.cursor) raw brace.cursor with
      | stop o' => simpa using hblock _ raw brace.cursor
      | onward o' next =>
        refine List.isChain_append.2 ⟨hblock _ raw brace.cursor, .singleton _, ?_⟩
        intro call hcall call' hcall'
        obtain rfl := Option.some.inj hcall'
        exact stack_blockExits hcall hembedded

/-- Where a step exits twice, the second time is from the stack that the first one left. -/
theorem isChain_exitsAt (options : Options) (o : Outline) (c : Cursor) :
    (o.exitsAt options c).IsChain fun call call' =>
      call'.stack = (call.stack.exit call.context).2 := by
  have hblock : ∀ (o : Outline) (context : Context) (c : Cursor),
      (o.blockExits context c).IsChain fun call call' =>
        call'.stack = (call.stack.exit call.context).2 := by
    intro o context c
    unfold blockExits
    split
    · exact .nil
    · exact .singleton _
  unfold exitsAt
  split
  · next ch after _ =>
    split
    · exact .nil
    · simp only
      generalize o.beforeCode (ch = '{') c = o
      split
      · split
        · exact hblock _ _ c
        · exact .nil
      · exact .nil
      · exact .nil
      · split
        · exact isChain_declarationExits after hblock
        · exact .nil
  · exact .nil

/-! ## Every step -/

/-- Where the pass over a text begins: behind a byte order mark, if there is one. -/
def firstCursor (text : List Char) : Cursor :=
  let c : Cursor := ⟨.start, text⟩
  if text.head? = some EncodingIssue.byteOrderMark then c.advance else c

theorem ofText_eq (options : Options) (text : List Char) (log : Log) :
    ofText options text log = walk options (initial ⟨.start, text⟩ log) (firstCursor text) := rfl

theorem reaches_firstCursor (text : List Char) :
    (⟨.start, text⟩ : Cursor).Reaches (firstCursor text) := by
  unfold firstCursor
  simp only
  split
  · exact Cursor.reaches_advance _
  · exact .refl _

/-- The exits of a step: each of them removes what was pushed for it and is from the stack that
the one before has left, and what the last one leaves is the stack that the step goes on with. -/
structure ExitsWell (options : Options) (o : Outline) (c : Cursor) : Prop where
  pops : ∀ call ∈ o.exitsAt options c, call.Pops
  chain : (o.exitsAt options c).IsChain fun call call' =>
    call'.stack = (call.stack.exit call.context).2
  last : ∀ call o' next, (o.exitsAt options c).getLast? = some call →
    o.step options c = .onward o' next → o'.stack = (call.stack.exit call.context).2

theorem exitsWell (options : Options) (o : Outline) (c : Cursor) : o.ExitsWell options c :=
  ⟨pops_exitsAt options o c, isChain_exitsAt options o c, fun _ _ _ => stack_exitsAt⟩

/-- Whatever the options are: before each step of the pass over a text the state is consistent,
a step that goes on is at a later byte, and no exit of the step goes wrong. The rest of the pass
is what is still to come of it. -/
theorem consistent_of_walks {text : List Char} {log : Log}
    (h : Walks options (initial ⟨.start, text⟩ log) (firstCursor text) o c) :
    o.Consistent c ∧
    (∀ o' next, o.step options c = .onward o' next → c.offset < next.cursor.offset) ∧
    o.ExitsWell options c ∧ ofText options text log = o.walk options c :=
  ⟨((consistent_initial text log).onward (reaches_firstCursor text)).walks h,
    fun _ next _ => next.strictlyReaches.offset_lt, exitsWell options o c,
    (ofText_eq options text log).trans h.walk_eq⟩

/-- Between two origin blocks the state is consistent again, and the second one is exited as
the first one was. -/
theorem consistent_of_walks_origins :
    let text := "[Origin] @Html \x7b x \x7d[Origin] @Html \x7b\x7d".toList
    ∃ o c, Walks .standard (initial ⟨.start, text⟩ .empty) (firstCursor text) o c ∧
    (o.emitted.length = 3 ∧ (o.exitsAt .standard c).length = 2) ∧ o.Consistent c ∧
    (∀ o' next, o.step .standard c = .onward o' next → c.offset < next.cursor.offset) ∧
    o.ExitsWell .standard c ∧ ofText .standard text .empty = o.walk .standard c := by
  intro text
  have hcheck : (match (initial ⟨.start, text⟩ .empty).step .standard (firstCursor text) with
      | .onward o next =>
        decide (o.emitted.length = 3 ∧ (o.exitsAt .standard next.cursor).length = 2)
      | .stop _ => false) = true := by decide +kernel
  cases hstep : (initial ⟨.start, text⟩ .empty).step .standard (firstCursor text) with
  | stop o => simp [hstep] at hcheck
  | onward o next =>
    simp only [hstep, decide_eq_true_eq] at hcheck
    have hwalk := Walks.step hstep (.refl o next.cursor)
    exact ⟨o, next.cursor, hwalk, hcheck, consistent_of_walks hwalk⟩

end Outline

end Polyglot
