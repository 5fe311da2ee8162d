-- SUMMARY: What the operations of the structural pass change, and what they leave alone.
import Polyglot.Outline

/-!
# Operations

The structural pass works on its state by a few operations: it emits the text
between two cursors, it changes its stack, and it closes contexts. The lemmas here
say what each of them changes; no invariant of the pass has to unfold them again.
-/

namespace Polyglot

/-! ## Cursors that lie ahead -/

/-- `d` lies after `c` in the same text. -/
def Cursor.StrictlyReaches (c d : Cursor) : Prop := ∃ ch text, c.Consumes (ch :: text) d

namespace Cursor

theorem Later.strictlyReaches {c : Cursor} (l : c.Later) : c.StrictlyReaches l.cursor := l.reached

theorem StrictlyReaches.reaches {c d : Cursor} (h : c.StrictlyReaches d) : c.Reaches d := by
  obtain ⟨ch, u, hu⟩ := h
  exact ⟨ch :: u, hu⟩

theorem StrictlyReaches.trans_reaches {c d e : Cursor} (h : c.StrictlyReaches d)
    (k : d.Reaches e) : c.StrictlyReaches e := by
  obtain ⟨ch, u, hu⟩ := h
  obtain ⟨v, hv⟩ := k
  exact ⟨ch, u ++ v, hu.trans hv⟩

theorem Reaches.trans_strictly {c d e : Cursor} (h : c.Reaches d) (k : d.StrictlyReaches e) :
    c.StrictlyReaches e := by
  obtain ⟨u, hu⟩ := h
  obtain ⟨ch, v, hv⟩ := k
  cases u with
  | nil => exact ⟨ch, v, hu.trans hv⟩
  | cons x u => exact ⟨x, u ++ ch :: v, hu.trans hv⟩

theorem strictlyReaches_advance {c : Cursor} (h : c.rest ≠ []) : c.StrictlyReaches c.advance := by
  obtain ⟨p, text⟩ := c
  cases text with
  | nil => exact absurd rfl h
  | cons ch rest => exact ⟨ch, [], rfl, rfl⟩

theorem skip_of_consumes {c d : Cursor} {u : List Char} (h : c.Consumes u d) :
    c.skip u.length = d := by
  induction u generalizing c with
  | nil =>
    obtain ⟨p, text⟩ := c
    obtain ⟨q, text'⟩ := d
    obtain ⟨hrest, hpos⟩ := h
    obtain rfl : text = text' := hrest
    obtain rfl : q = p := hpos
    rfl
  | cons ch u ih =>
    obtain ⟨p, text⟩ := c
    obtain ⟨hrest, hpos⟩ := h
    obtain rfl : text = ch :: (u ++ d.rest) := hrest
    exact ih ⟨rfl, hpos⟩

theorem Later.rest_ne_nil {c : Cursor} (l : c.Later) : c.rest ≠ [] := by
  obtain ⟨ch, u, hrest, -⟩ := l.reached
  simp [hrest]

theorem Reaches.offset_le {c d : Cursor} (h : c.Reaches d) : c.offset ≤ d.offset := by
  obtain ⟨u, hu⟩ := h
  rw [offset, offset, hu.2, Position.advanceOver_offset]
  exact Nat.le_add_right _ _

theorem StrictlyReaches.length_lt {c d : Cursor} (h : c.StrictlyReaches d) :
    d.rest.length < c.rest.length := by
  obtain ⟨ch, text, hread⟩ := h
  exact Later.length_lt ⟨d, ch, text, hread⟩

theorem StrictlyReaches.offset_lt {c d : Cursor} (h : c.StrictlyReaches d) :
    c.offset < d.offset := by
  obtain ⟨ch, u, hu⟩ := h
  have hsize := ch.utf8Size_pos
  rw [offset, offset, hu.2, Position.advanceOver_offset, byteLength_cons]
  omega

end Cursor

/-! ## Stacks -/

namespace Stack

theorem seek_suffix {p : Entry → Bool} {entries kept : List Entry} {e : Entry}
    (h : seek p entries = some (e, kept)) : kept <:+ entries := by
  induction entries with
  | nil => cases h
  | cons x below ih =>
    simp only [seek] at h
    split at h
    · cases h
      exact List.suffix_cons _ _
    · exact (ih h).trans (List.suffix_cons x below)

/-- What closes contexts leaves the entries below them. -/
theorem exit_suffix (s : Stack) (expected : Context) :
    (s.exit expected).2.entries <:+ s.entries ∧ (s.exit expected).2.lastScope = s.lastScope := by
  obtain ⟨entries, lastScope⟩ := s
  cases entries with
  | nil => exact ⟨List.suffix_rfl, rfl⟩
  | cons e below =>
    simp only [exit]
    split
    · exact ⟨List.suffix_cons e below, rfl⟩
    · refine ⟨?_, rfl⟩
      cases hseek : seek (·.context = expected) below with
      | none => exact List.suffix_rfl
      | some found => exact (seek_suffix hseek).trans (List.suffix_cons e below)

theorem closeBrace_suffix (s : Stack) :
    s.closeBrace.2.entries <:+ s.entries ∧ s.closeBrace.2.lastScope = s.lastScope := by
  obtain ⟨entries, lastScope⟩ := s
  cases entries with
  | nil => exact ⟨List.suffix_rfl, rfl⟩
  | cons e below =>
    simp only [closeBrace]
    split
    · exact ⟨List.suffix_cons e below, rfl⟩
    · split
      · next hseek => exact ⟨(seek_suffix hseek).trans (List.suffix_cons e below), rfl⟩
      · exact ⟨List.nil_suffix, rfl⟩

theorem endHeader_suffix (s : Stack) :
    s.endHeader.2.entries <:+ s.entries ∧ s.endHeader.2.lastScope = s.lastScope := by
  obtain ⟨entries, lastScope⟩ := s
  cases entries with
  | nil => exact ⟨List.suffix_rfl, rfl⟩
  | cons e below =>
    simp only [endHeader]
    split
    · exact ⟨List.suffix_cons e below, rfl⟩
    · exact ⟨List.suffix_rfl, rfl⟩

/-- The body of a declaration opens where its header is on top. -/
theorem openHeaderBody_some {s t : Stack} {pos : Position} (h : s.openHeaderBody pos = some t) :
    ∃ e below lastScope, s = ⟨e :: below, lastScope⟩ ∧
      t = ⟨{ e with kind := .brace, openedAt := pos } :: below, lastScope⟩ := by
  obtain ⟨entries, lastScope⟩ := s
  cases entries with
  | nil => cases h
  | cons e below =>
    simp only [openHeaderBody] at h
    split at h
    · cases h
      exact ⟨e, below, lastScope, rfl, rfl⟩
    · cases h

/-- To enter a context and to exit it again only uses up a scope. -/
theorem exit_enter_eq (s : Stack) (context : Context) (kind : EntryKind) (pos : Position) :
    ((s.enter context kind pos).exit context).2 = ⟨s.entries, s.lastScope + 1⟩ := by
  simp [enter, exit]

/-- To leave the context on top gives back what was open before. -/
theorem exit_top (e : Entry) (below : List Entry) (lastScope : Scope) :
    ((⟨e :: below, lastScope⟩ : Stack).exit e.context).2 = ⟨below, lastScope⟩ := by
  simp [exit]

end Stack

/-! ## Emitting -/

/-- The fragment that the structural pass makes of a text. -/
def Frame.fragment (frame : Frame) (degraded : Bool) (id : FragmentId) (content : List Char)
    (start stop : Position) : Fragment :=
  { toFrame := frame, id := id, content := content, start := start, stop := stop,
    features := .none, literals := [], degraded := degraded }

namespace Outline

variable {o : Outline} {options : Options} {c d : Cursor}

theorem emit_nil (o : Outline) (frame : Frame) (degraded : Bool) (h : c.Consumes [] d) :
    o.emit frame degraded c d = o := by
  unfold emit
  rw [h.textTo_eq]

theorem emit_text (o : Outline) (frame : Frame) (degraded : Bool) {content : List Char}
    (h : c.Consumes content d) (hne : content ≠ []) :
    o.emit frame degraded c d =
      { o with
        emitted := frame.fragment degraded o.issued content c.position d.position :: o.emitted,
        issued := o.issued + 1 } := by
  unfold emit
  rw [h.textTo_eq]
  cases content with
  | nil => exact absurd rfl hne
  | cons => rfl

/-- To emit changes only what was emitted. -/
theorem emit_frame (o : Outline) (frame : Frame) (degraded : Bool) (c d : Cursor) :
    (o.emit frame degraded c d).stack = o.stack ∧ (o.emit frame degraded c d).mark = o.mark ∧
    (o.emit frame degraded c d).run = o.run ∧ (o.emit frame degraded c d).head = o.head ∧
    (o.emit frame degraded c d).newline = o.newline ∧ (o.emit frame degraded c d).log = o.log := by
  unfold emit
  split <;> exact ⟨rfl, rfl, rfl, rfl, rfl, rfl⟩

theorem changeStack_of_eq (o : Outline) (c : Cursor) {stack : Stack}
    (h : stack.current = o.run.context) : o.changeStack c stack = { o with stack := stack } :=
  if_pos h

theorem changeStack_of_ne (o : Outline) (c : Cursor) {stack : Stack}
    (h : stack.current ≠ o.run.context) :
    o.changeStack c stack =
      { o.emitRun c with stack := stack, mark := c, run := stack.frame } := by
  have hne : o.changeStack c stack =
      { ({ o with stack := stack } : Outline).emitRun c with mark := c, run := stack.frame } :=
    if_neg h
  rw [hne]
  simp only [emitRun, emit]
  cases o.mark.textTo c <;> rfl

/-- A body is emitted whole, unless it is a local script that is to be cut. -/
theorem emitBody_of_not {frame : Frame}
    (h : ¬ (frame.context = .scriptLocal ∧ options.splitStatements)) (o : Outline)
    (body : Cursor) (text : List Char) :
    emitBody options o frame body text =
      o.emit frame false ⟨body.position, text⟩ ⟨body.position.advanceOver text, []⟩ := by
  have hcut : (frame.context = .scriptLocal && options.splitStatements) = false := by simpa using h
  simp [emitBody, hcut, Cursor.stretches, Cursor.toEnd]

theorem emitBody_whole {options : Options} (hwhole : options.splitStatements = false)
    (o : Outline) (frame : Frame) (body : Cursor) (text : List Char) :
    emitBody options o frame body text =
      o.emit frame false ⟨body.position, text⟩ ⟨body.position.advanceOver text, []⟩ :=
  emitBody_of_not (by simp [hwhole]) o body text

/-- What holds of the state after a step, if the pass goes on and if it ends. -/
def Flow.Meets {c : Cursor} (onward : Outline → Cursor → Prop) (stop : Outline → Prop) :
    Flow c → Prop
  | .onward o next => onward o next.cursor
  | .stop o => stop o

theorem Flow.Meets.imp {c : Cursor} {flow : Flow c} {p p' : Outline → Cursor → Prop}
    {q : Outline → Prop} (h : flow.Meets p q) (hp : ∀ o d, p o d → p' o d) : flow.Meets p' q := by
  cases flow with
  | onward o next => exact hp _ _ h
  | stop o => exact h

/-! ## The log -/

theorem log_emit (o : Outline) (frame : Frame) (degraded : Bool) (c d : Cursor) :
    (o.emit frame degraded c d).log = o.log := (emit_frame o frame degraded c d).2.2.2.2.2

/-- What is emitted does not depend on the log. -/
theorem emit_withLog (o : Outline) (log : Log) (frame : Frame) (degraded : Bool)
    (c d : Cursor) : ({ o with log := log } : Outline).emit frame degraded c d =
      { o.emit frame degraded c d with log := log } := by
  unfold emit
  split <;> rfl

theorem log_emitBody (options : Options) (o : Outline) (frame : Frame) (body : Cursor)
    (text : List Char) : (emitBody options o frame body text).log = o.log := by
  unfold emitBody
  simp only
  generalize Cursor.stretches _ _ = stretches
  induction stretches generalizing o with
  | nil => rfl
  | cons stretch stretches ih => rw [List.foldl_cons, ih, log_emit]

/-- To change the stack may end the run, and changes nothing else. -/
theorem changeStack_frame (o : Outline) (c : Cursor) (stack : Stack) :
    (o.changeStack c stack).stack = stack ∧ (o.changeStack c stack).head = o.head ∧
    (o.changeStack c stack).newline = o.newline ∧ (o.changeStack c stack).log = o.log := by
  by_cases h : stack.current = o.run.context
  · rw [changeStack_of_eq o c h]
    exact ⟨rfl, rfl, rfl, rfl⟩
  · obtain ⟨-, -, -, hhead, hnewline, hlog⟩ := emit_frame o o.run false o.mark c
    rw [changeStack_of_ne o c h]
    exact ⟨rfl, hhead, hnewline, hlog⟩

theorem log_changeStack (o : Outline) (c : Cursor) (stack : Stack) :
    (o.changeStack c stack).log = o.log := (changeStack_frame o c stack).2.2.2

/-- What was found while a block was read goes to the log only. -/
theorem elim_guardIssue (o : Outline) (issue : Option GuardIssue) :
    ∃ log, issue.elim o o.guardIssue = { o with log := log } := by
  cases issue with
  | none => exact ⟨o.log, rfl⟩
  | some issue => exact ⟨_, rfl⟩

/-- A closing brace logs a mismatch, or nothing. -/
theorem log_closeBrace (o : Outline) (c : Cursor) (after : c.Later) :
    (o.closeBrace c after).log = o.log ∨
    ∃ f : Fault, f.kind = .contextMismatch ∧
      (o.closeBrace c after).log = o.log.error (f.found c.position) := by
  have hlog := log_changeStack o after.cursor o.stack.closeBrace.2
  unfold closeBrace
  simp only
  split
  · exact .inl hlog
  · exact .inr ⟨.unmatchedBrace, rfl, congrArg (Log.error · _) hlog⟩
  · next expected found openedAt _ =>
    exact .inr ⟨.bodilessHeader expected found openedAt, rfl, congrArg (Log.error · _) hlog⟩

/-- The end of the document logs the outermost brace that is open, if one is. -/
theorem log_finish (o : Outline) (c : Cursor) :
    (o.finish c).log = (o.stack.outermostBrace.elim o.log fun entry =>
      o.log.error ((Fault.unclosedBrace entry.context).found entry.openedAt)) := by
  obtain ⟨hstack, -, -, -, -, hlog⟩ := emit_frame o o.run false o.mark c
  unfold finish emitRun
  simp only [hstack]
  cases o.stack.outermostBrace with
  | none => exact hlog
  | some entry => exact congrArg (Log.error · _) hlog

/-! ## What was emitted -/

section Emitted

variable {p : Fragment → Prop}

/-- What holds of the fragments of a frame holds of what is emitted under it. -/
theorem emitted_emit (h : ∀ f ∈ o.emitted, p f) {frame : Frame} {degraded : Bool}
    (hframe : ∀ id content start stop, p (frame.fragment degraded id content start stop))
    (c d : Cursor) : ∀ f ∈ (o.emit frame degraded c d).emitted, p f := by
  unfold emit
  split
  · exact h
  · intro f hf
    rcases List.mem_cons.1 hf with rfl | hf
    · exact hframe _ _ _ _
    · exact h f hf

theorem emitted_emitBody (h : ∀ f ∈ o.emitted, p f) {frame : Frame}
    (hframe : ∀ id content start stop, p (frame.fragment false id content start stop))
    (body : Cursor) (text : List Char) :
    ∀ f ∈ (emitBody options o frame body text).emitted, p f := by
  unfold emitBody
  simp only
  generalize Cursor.stretches _ _ = stretches
  induction stretches generalizing o with
  | nil => exact h
  | cons stretch stretches ih => exact ih (emitted_emit h hframe _ _)

theorem emitted_changeStack (h : ∀ f ∈ o.emitted, p f)
    (hrun : ∀ id content start stop, p (o.run.fragment false id content start stop))
    (c : Cursor) (stack : Stack) : ∀ f ∈ (o.changeStack c stack).emitted, p f := by
  by_cases hcontext : stack.current = o.run.context
  · rw [changeStack_of_eq o c hcontext]
    exact h
  · rw [changeStack_of_ne o c hcontext]
    exact emitted_emit h hrun _ _

end Emitted

end Outline

end Polyglot
