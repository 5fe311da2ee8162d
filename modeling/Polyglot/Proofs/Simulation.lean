-- SUMMARY: The structural pass goes through the same states behind a byte order mark.
import Polyglot.Proofs.Shift

/-!
# The structural pass behind a byte order mark

Two structural passes, one over a document and one over the same document with a byte
order mark in front, go through states that lie beside each other (`Outline.Beside`).
Only the first run differs: it begins with the mark (`Outline.Begins`). Stack, log and what
is emitted are compared part by part, each step keeps the states beside each other, and
by induction the walk does (`Outline.Beside.walk`).
-/

namespace Polyglot

/-! ## Stacks -/

/-- The same entry, behind a byte order mark. -/
structure Entry.Beside (e e' : Entry) : Prop where
  context : e'.context = e.context
  kind : e'.kind = e.kind
  scope : e'.scope = e.scope
  openedAt : e.openedAt.Beside e'.openedAt

namespace Stack

/-- The same stack, behind a byte order mark. -/
structure Beside (s t : Stack) : Prop where
  entries : List.Forall₂ Entry.Beside s.entries t.entries
  lastScope : t.lastScope = s.lastScope

variable {s t : Stack}

theorem contexts_beside {es es' : List Entry} (h : List.Forall₂ Entry.Beside es es') :
    es'.map Entry.context = es.map Entry.context := by
  induction h with
  | nil => rfl
  | cons he _ ih => rw [List.map_cons, List.map_cons, he.context, ih]

theorem Beside.frame (h : s.Beside t) : t.frame = s.frame := by
  obtain ⟨entries, lastScope⟩ := s
  obtain ⟨entries', lastScope'⟩ := t
  obtain ⟨hentries, hlast⟩ := h
  cases hentries with
  | nil => rfl
  | @cons e e' below below' he hbelow =>
    simp [Stack.frame, current, top, currentScope, depth, enclosing, he.context, he.scope,
      contexts_beside hbelow, hbelow.length_eq]

theorem Beside.current (h : s.Beside t) : t.current = s.current :=
  congrArg Frame.context h.frame

theorem Beside.enter (h : s.Beside t) (context : Context) (kind : EntryKind) {p q : Position}
    (hpos : p.Beside q) : (s.enter context kind p).Beside (t.enter context kind q) := by
  obtain ⟨hentries, hlast⟩ := h
  have hscope : t.lastScope + 1 = s.lastScope + 1 := congrArg Nat.succ hlast
  exact ⟨.cons ⟨rfl, rfl, hscope, hpos⟩ hentries, hscope⟩

theorem Beside.openHeaderBody (h : s.Beside t) {p q : Position} (hpos : p.Beside q) :
    Option.Rel Beside (s.openHeaderBody p) (t.openHeaderBody q) := by
  obtain ⟨entries, lastScope⟩ := s
  obtain ⟨entries', lastScope'⟩ := t
  obtain ⟨hentries, hlast⟩ := h
  cases hentries with
  | nil => exact .none
  | @cons e e' below below' he hbelow =>
    simp only [Stack.openHeaderBody, he.kind]
    split
    · exact .some ⟨.cons ⟨he.context, rfl, he.scope, hpos⟩ hbelow, hlast⟩
    · exact .none

theorem Beside.endHeader (h : s.Beside t) : s.endHeader.2.Beside t.endHeader.2 := by
  obtain ⟨entries, lastScope⟩ := s
  obtain ⟨entries', lastScope'⟩ := t
  obtain ⟨hentries, hlast⟩ := id h
  cases hentries with
  | nil => exact h
  | @cons e e' below below' he hbelow =>
    simp only [Stack.endHeader, he.kind]
    split
    · exact ⟨hbelow, hlast⟩
    · exact h

theorem seek_beside {p : Entry → Bool} (hp : ∀ e e', Entry.Beside e e' → p e = p e')
    {entries entries' : List Entry} (h : List.Forall₂ Entry.Beside entries entries') :
    Option.Rel (fun x y => x.1.Beside y.1 ∧ List.Forall₂ Entry.Beside x.2 y.2)
      (seek p entries) (seek p entries') := by
  induction h with
  | nil => exact .none
  | @cons e e' below below' he hbelow ih =>
    rw [seek, seek, hp e e' he]
    split
    · exact .some ⟨he, hbelow⟩
    · exact ih

theorem Beside.exit (h : s.Beside t) (expected : Context) :
    (s.exit expected).2.Beside (t.exit expected).2 := by
  obtain ⟨entries, lastScope⟩ := s
  obtain ⟨entries', lastScope'⟩ := t
  obtain ⟨hentries, hlast⟩ := id h
  cases hentries with
  | nil => exact h
  | @cons e e' below below' he hbelow =>
    have hseek := seek_beside (p := (·.context = expected))
      (fun e e' he => by simp only [he.context]) hbelow
    simp only [Stack.exit, he.context]
    split
    · exact ⟨hbelow, hlast⟩
    · refine ⟨?_, hlast⟩
      generalize seek (·.context = expected) below = a at hseek ⊢
      generalize seek (·.context = expected) below' = b at hseek ⊢
      cases hseek with
      | none => exact .cons he hbelow
      | some hkept => exact hkept.2

/-- Two closes of a brace that both fit, both have nothing to close, or both drop headers. -/
inductive ClosesBeside : Except StackError Entry → Except StackError Entry → Prop where
  | ok {e e' : Entry} : ClosesBeside (.ok e) (.ok e')
  | empty : ClosesBeside (.error .empty) (.error .empty)
  | mismatch {expected found expected' found' : Context} {p q : Position} :
      ClosesBeside (.error (.mismatch expected found p)) (.error (.mismatch expected' found' q))

theorem Beside.closeBrace (h : s.Beside t) :
    ClosesBeside s.closeBrace.1 t.closeBrace.1 ∧ s.closeBrace.2.Beside t.closeBrace.2 := by
  obtain ⟨entries, lastScope⟩ := s
  obtain ⟨entries', lastScope'⟩ := t
  obtain ⟨hentries, hlast⟩ := id h
  cases hentries with
  | nil => exact ⟨.empty, h⟩
  | @cons e e' below below' he hbelow =>
    have hseek := seek_beside (p := (·.kind = .brace))
      (fun e e' he => by simp only [he.kind]) hbelow
    simp only [Stack.closeBrace, he.kind]
    split
    · exact ⟨.ok, hbelow, hlast⟩
    · generalize seek (·.kind = .brace) below = a at hseek ⊢
      generalize seek (·.kind = .brace) below' = b at hseek ⊢
      cases hseek with
      | none => exact ⟨.empty, .nil, hlast⟩
      | some hkept => exact ⟨.mismatch, hkept.2, hlast⟩

theorem Beside.outermostBrace (h : s.Beside t) :
    Option.Rel Entry.Beside s.outermostBrace t.outermostBrace := by
  unfold Stack.outermostBrace
  have hreverse := List.forall₂_reverse_iff.2 h.entries
  generalize s.entries.reverse = es at hreverse ⊢
  generalize t.entries.reverse = es' at hreverse ⊢
  induction hreverse with
  | nil => exact .none
  | @cons e e' below below' he hbelow ih =>
    rw [List.find?_cons, List.find?_cons, he.kind]
    split
    · exact .some he
    · exact ih

end Stack

/-! ## The log -/

/-- The same kind of error, behind a byte order mark. The message may tell a place. -/
structure ScanError.Beside (e e' : ScanError) : Prop where
  kind : e'.kind = e.kind
  position : e.position.Beside e'.position

/-- What was found behind a byte order mark: the same, and the mark before it. -/
structure Log.Beside (log log' : Log) : Prop where
  errors : List.Forall₂ ScanError.Beside log.errors log'.errors
  warnings : ∃ more,
    log'.warnings = (Remark.encoding .byteOrderMark).found .start :: more ∧
      List.Forall₂ ScanWarning.Beside log.warnings more

namespace Log

variable {log log' : Log}

theorem Beside.error (h : log.Beside log') {e e' : ScanError} (he : e.Beside e') :
    (log.error e).Beside (log'.error e') := by
  refine ⟨?_, h.warnings⟩
  rw [errors_error, errors_error]
  exact List.rel_append h.errors (.cons he .nil)

theorem Beside.append (h : log.Beside log') {ws ws' : List ScanWarning} {new new' : Log}
    (herrors : new.errors = log.errors) (herrors' : new'.errors = log'.errors)
    (hwarnings : new.warnings = log.warnings ++ ws)
    (hwarnings' : new'.warnings = log'.warnings ++ ws')
    (hws : List.Forall₂ ScanWarning.Beside ws ws') : new.Beside new' := by
  obtain ⟨more, hmore, hbeside⟩ := h.warnings
  refine ⟨?_, more ++ ws', ?_, ?_⟩
  · rw [herrors, herrors']
    exact h.errors
  · rw [hwarnings', hmore, List.cons_append]
  · rw [hwarnings]
    exact List.rel_append hbeside hws

theorem Beside.guardIssue (h : log.Beside log') {i j : GuardIssue} (hij : i.Beside j) :
    (log.guardIssue i).Beside (log'.guardIssue j) := by
  unfold Log.guardIssue
  rw [hij.region]
  split
  · exact h.error ⟨rfl, hij.start⟩
  · exact h.append rfl rfl (warnings_warning _ _) (warnings_warning _ _)
      (.cons ⟨rfl, hij.start⟩ .nil)

end Log

/-! ## What is emitted -/

namespace Fragment

/-- A fragment at the start of a document, with a byte order mark in front of it. -/
def marked (f : Fragment) : Fragment :=
  { f.behindMark with content := EncodingIssue.byteOrderMark :: f.content, start := .start }

/-- A byte order mark as a fragment of its own. -/
def loneMark : Fragment :=
  Stack.empty.frame.fragment false 0 [EncodingIssue.byteOrderMark] .start
    (Position.start.advance EncodingIssue.byteOrderMark)

/-- The fragments of a document with a byte order mark: the mark is in front of the first
fragment if that is global, or stands alone. -/
def withMark : List Fragment → List Fragment
  | [] => [loneMark]
  | f :: fs =>
    if f.context = .global then f.marked :: fs.map behindMark
    else loneMark :: (f :: fs).map behindMark

/-- The mark is in front of a first fragment that is global, or stands alone. -/
inductive Marked : List Fragment → List Fragment → Prop where
  | joined {f : Fragment} {fs : List Fragment} (global : f.context = .global) :
      Marked (f :: fs) (f.marked :: fs.map behindMark)
  | apart {fs : List Fragment} : Marked fs (loneMark :: fs.map behindMark)

theorem Marked.concat {fs gs : List Fragment} (h : Marked fs gs) (f : Fragment) :
    Marked (fs ++ [f]) (gs ++ [f.behindMark]) := by
  cases h with
  | @joined g fs global =>
    have hjoined : Marked (g :: (fs ++ [f])) (g.marked :: (fs ++ [f]).map behindMark) :=
      .joined global
    rwa [List.map_append, ← List.cons_append] at hjoined
  | apart =>
    have hapart : Marked (fs ++ [f]) (loneMark :: (fs ++ [f]).map behindMark) := .apart
    rwa [List.map_append, ← List.cons_append] at hapart

end Fragment

namespace Outline

/-- The two passes have emitted the same, but for the mark. -/
def Emits (o o' : Outline) : Prop :=
  Fragment.Marked (o.fragments.map Fragment.unnumbered) (o'.fragments.map Fragment.unnumbered)

/-- How the first run of the two passes stands: nothing was emitted, and the mark is still
ahead, or it was emitted. -/
inductive Begins (text : List Char) (o o' : Outline) : Prop where
  | before (emitted : o.emitted = [] ∧ o'.emitted = []) (run : o.run = Stack.empty.frame)
      (mark : o.mark = ⟨.start, text⟩)
      (mark' : o'.mark = ⟨.start, EncodingIssue.byteOrderMark :: text⟩)
  | behind (emits : o.Emits o') (mark : o.mark.Beside o'.mark)

/-- A pass over a document and one over the same document with a byte order mark. -/
structure Beside (text : List Char) (o o' : Outline) : Prop where
  stack : o.stack.Beside o'.stack
  run : o'.run = o.run
  head : o'.head = o.head
  newline : o'.newline = o.newline
  log : o.log.Beside o'.log
  begins : Begins text o o'

variable {options : Options} {text : List Char} {o o' : Outline} {c d c' d' : Cursor}

theorem Emits.emit (h : o.Emits o') (frame : Frame) (degraded : Bool) (hc : c.Beside d)
    (hc' : c'.Beside d') : (o.emit frame degraded c c').Emits (o'.emit frame degraded d d') := by
  unfold Outline.emit
  rw [hc.textTo hc']
  cases d.textTo d' with
  | nil => exact h
  | cons ch text =>
    have hmore := h.concat (frame.fragment degraded 0 (ch :: text) c.position c'.position)
    have hlast : (frame.fragment degraded 0 (ch :: text) c.position c'.position).behindMark =
        frame.fragment degraded 0 (ch :: text) d.position d'.position := by
      rw [hc.position.place, hc'.position.place]
      rfl
    rw [hlast] at hmore
    simp only [Emits, fragments, List.reverse_cons, List.map_append] at hmore ⊢
    exact hmore

/-- The end of the first run: the second pass emits the mark, with the run if there is one. -/
theorem Beside.emitRun (h : o.Beside text o') (hc : (⟨.start, text⟩ : Cursor).Reaches c)
    (hcd : c.Beside d) : (o.emitRun c).Emits (o'.emitRun d) := by
  unfold Outline.emitRun
  cases h.begins with
  | behind emits mark =>
    rw [h.run]
    exact emits.emit o.run false mark hcd
  | before emitted run mark mark' =>
    rw [h.run, run, mark, mark']
    obtain ⟨u, hu⟩ := hc
    have hbegin := hcd.consumes_mark hu
    rw [emit_text o' _ _ hbegin (List.cons_ne_nil _ _)]
    by_cases hnil : u = []
    · subst hnil
      have hlone : (Stack.empty.frame.fragment false o'.issued [EncodingIssue.byteOrderMark] .start
          d.position).unnumbered = Fragment.loneMark := by
        rw [hbegin.2]
        rfl
      rw [emit_nil o _ _ hu]
      simp only [Emits, fragments, emitted.1, emitted.2]
      change Fragment.Marked [] [_]
      rw [hlone]
      exact .apart
    · have hfirst : (Stack.empty.frame.fragment false o'.issued (EncodingIssue.byteOrderMark :: u)
          .start d.position).unnumbered =
            (Stack.empty.frame.fragment false o.issued u .start c.position).unnumbered.marked := by
        rw [hcd.position.place]
        rfl
      rw [emit_text o _ _ hu hnil]
      simp only [Emits, fragments, emitted.1, emitted.2]
      change Fragment.Marked [_] [_]
      rw [hfirst]
      exact .joined rfl

/-! ## Changes of the state -/

theorem Begins.of_eq {n n' : Outline} (h : Begins text o o')
    (hsame : n.emitted = o.emitted ∧ n.mark = o.mark ∧ n.run = o.run)
    (hsame' : n'.emitted = o'.emitted ∧ n'.mark = o'.mark) : Begins text n n' := by
  obtain ⟨hemitted, hmark, hrun⟩ := hsame
  obtain ⟨hemitted', hmark'⟩ := hsame'
  cases h with
  | before emitted run mark mark' =>
    exact .before (by rw [hemitted, hemitted']; exact emitted) (hrun.trans run)
      (hmark.trans mark) (hmark'.trans mark')
  | behind emits mark =>
    refine .behind ?_ (by rw [hmark, hmark']; exact mark)
    unfold Emits fragments
    rw [hemitted, hemitted']
    exact emits

theorem Beside.setHead (h : o.Beside text o') (head : Head) :
    Beside text { o with head := head } { o' with head := head } :=
  ⟨h.stack, h.run, rfl, h.newline, h.log, h.begins.of_eq ⟨rfl, rfl, rfl⟩ ⟨rfl, rfl⟩⟩

theorem Beside.setNewline (h : o.Beside text o') (newline : Bool) :
    Beside text { o with newline := newline } { o' with newline := newline } :=
  ⟨h.stack, h.run, h.head, rfl, h.log, h.begins.of_eq ⟨rfl, rfl, rfl⟩ ⟨rfl, rfl⟩⟩

theorem Beside.setStack (h : o.Beside text o') {s t : Stack} (hstack : s.Beside t) :
    Beside text { o with stack := s } { o' with stack := t } :=
  ⟨hstack, h.run, h.head, h.newline, h.log, h.begins.of_eq ⟨rfl, rfl, rfl⟩ ⟨rfl, rfl⟩⟩

theorem Beside.setLog (h : o.Beside text o') {log log' : Log} (hlog : log.Beside log') :
    Beside text { o with log := log } { o' with log := log' } :=
  ⟨h.stack, h.run, h.head, h.newline, hlog, h.begins.of_eq ⟨rfl, rfl, rfl⟩ ⟨rfl, rfl⟩⟩

theorem Beside.fault (h : o.Beside text o') {f f' : Fault} (hkind : f'.kind = f.kind)
    (hcd : c.Beside d) : (o.fault f c).Beside text (o'.fault f' d) :=
  h.setLog (h.log.error ⟨hkind, hcd.position⟩)

theorem Beside.guardIssue (h : o.Beside text o') {i j : GuardIssue} (hij : i.Beside j) :
    (o.guardIssue i).Beside text (o'.guardIssue j) :=
  h.setLog (h.log.guardIssue hij)

/-- Where the run ends and the next one begins. -/
theorem Beside.changeStack (h : o.Beside text o') (hc : (⟨.start, text⟩ : Cursor).Reaches c)
    (hcd : c.Beside d) {s t : Stack} (hstack : s.Beside t) :
    (o.changeStack c s).Beside text (o'.changeStack d t) := by
  have hrun : t.current = o'.run.context ↔ s.current = o.run.context := by
    rw [hstack.current, h.run]
  by_cases hcontext : s.current = o.run.context
  · rw [changeStack_of_eq o c hcontext, changeStack_of_eq o' d (hrun.2 hcontext)]
    exact h.setStack hstack
  · obtain ⟨-, -, -, hhead, hnewline, hlog⟩ := emit_frame o o.run false o.mark c
    obtain ⟨-, -, -, hhead', hnewline', hlog'⟩ := emit_frame o' o'.run false o'.mark d
    rw [changeStack_of_ne o c hcontext, changeStack_of_ne o' d (mt hrun.1 hcontext)]
    refine ⟨hstack, hstack.frame, ?_, ?_, ?_, .behind (h.emitRun hc hcd) hcd⟩
    · exact hhead'.trans (h.head.trans hhead.symm)
    · exact hnewline'.trans (h.newline.trans hnewline.symm)
    · rw [Outline.emitRun, Outline.emitRun, hlog, hlog']
      exact h.log

theorem Beside.beforeCode (h : o.Beside text o') (hc : (⟨.start, text⟩ : Cursor).Reaches c)
    (hcd : c.Beside d) (isBrace : Bool) :
    (o.beforeCode isBrace c).Beside text (o'.beforeCode isBrace d) := by
  unfold Outline.beforeCode
  rw [h.newline]
  split
  · exact ((h.changeStack hc hcd h.stack.endHeader).setNewline false).setHead .start
  · exact h.setNewline false

/-! ## Steps -/

/-- How two passes end. -/
structure Ends (o o' : Outline) : Prop where
  emits : o.Emits o'
  log : o.log.Beside o'.log

/-- How two passes go on. -/
inductive Flow.Beside (text : List Char) {c d : Cursor} : Flow c → Flow d → Prop where
  | onward {o o' : Outline} {next : c.Later} {next' : d.Later} (state : o.Beside text o')
      (reader : next.cursor.Beside next'.cursor) :
      Flow.Beside text (.onward o next) (.onward o' next')
  | stop {o o' : Outline} (ends : o.Ends o') : Flow.Beside text (.stop o) (.stop o')

theorem Beside.finish (h : o.Beside text o') (hc : (⟨.start, text⟩ : Cursor).Reaches c)
    (hcd : c.Beside d) : (o.finish c).Ends (o'.finish d) := by
  refine ⟨?_, ?_⟩
  · have hemits := h.emitRun hc hcd
    unfold Emits at hemits ⊢
    have hfinish : ∀ (o : Outline) (c : Cursor),
        (o.finish c).fragments = (o.emitRun c).fragments := by
      intro o c
      unfold Outline.finish
      simp only
      split <;> rfl
    rw [hfinish, hfinish]
    exact hemits
  · have houter := h.stack.outermostBrace
    rw [log_finish, log_finish]
    generalize o.stack.outermostBrace = a at houter ⊢
    generalize o'.stack.outermostBrace = b at houter ⊢
    cases houter with
    | none => exact h.log
    | some he => exact h.log.error ⟨rfl, he.openedAt⟩

/-- Neither block is closed. -/
theorem Beside.unclosed (h : o.Beside text o') (hc : (⟨.start, text⟩ : Cursor).Reaches c)
    (hcd : c.Beside d) (context : Context) {u v : Unbalanced}
    (issue : Option.Rel GuardIssue.Beside u.issue v.issue) :
    Flow.Beside text (embeddedBy options o context c (.error u))
      (embeddedBy options o' context d (.error v)) := by
  have hbody : c.advance.skipBlank.Beside d.advance.skipBlank := hcd.advance.eatWhile isBlank
  have hreach : (⟨.start, text⟩ : Cursor).Reaches c.advance.skipBlank :=
    (hc.trans c.reaches_advance).trans (Cursor.reaches_eatWhile _ _)
  have hframe := (h.stack.enter context .brace hcd.position).frame
  have hissue : (u.issue.elim o o.guardIssue).Beside text (v.issue.elim o' o'.guardIssue) := by
    generalize u.issue = i at issue ⊢
    generalize v.issue = j at issue ⊢
    cases issue with
    | none => exact h
    | some hij => exact h.guardIssue hij
  have hemits := hissue.emitRun hreach hbody
  simp only [embeddedBy, hframe]
  generalize u.issue.elim o o.guardIssue = o₁ at hissue hemits ⊢
  generalize v.issue.elim o' o'.guardIssue = o₁' at hissue hemits ⊢
  refine .stop ⟨?_, ?_⟩
  · have hfault : Emits ((o₁.emitRun c.advance.skipBlank).fault (.unclosedBlock context u.depth) c)
        ((o₁'.emitRun d.advance.skipBlank).fault (.unclosedBlock context v.depth) d) := hemits
    exact hfault.emit _ _ hbody hbody.toEnd
  · have hlog : ∀ (o : Outline) (c : Cursor), (o.emitRun c).log = o.log :=
      fun o c => log_emit o o.run false o.mark c
    rw [log_emit, log_emit]
    refine Log.Beside.error ?_ ⟨rfl, hcd.position⟩
    rw [hlog, hlog]
    exact hissue.log

/-- Both blocks are closed. -/
theorem Beside.closed (hwhole : options.splitStatements = false) (h : o.Beside text o')
    (hc : (⟨.start, text⟩ : Cursor).Reaches c) (hcd : c.Beside d) (context : Context)
    {close : c.Later} {close' : d.Later} (hclose : close.cursor.Beside close'.cursor) :
    Flow.Beside text (embeddedBy options o context c (.ok close))
      (embeddedBy options o' context d (.ok close')) := by
  have hbody : c.advance.skipBlank.Beside d.advance.skipBlank := hcd.advance.eatWhile isBlank
  have hreach : (⟨.start, text⟩ : Cursor).Reaches c.advance.skipBlank :=
    (hc.trans c.reaches_advance).trans (Cursor.reaches_eatWhile _ _)
  have hentered := h.stack.enter context .brace hcd.position
  have hstack := hentered.exit context
  simp only [embeddedBy, hentered.frame, ← hbody.textTo hclose]
  refine .onward ?_ hclose.advance
  generalize trimEnd (c.advance.skipBlank.textTo close.cursor) = content
  split
  · exact (h.setStack hstack).setHead .start
  · have hemits := h.emitRun hreach hbody
    have hpart : Cursor.Beside ⟨c.advance.skipBlank.position, content⟩
        ⟨d.advance.skipBlank.position, content⟩ := ⟨rfl, hbody.position⟩
    have hkept : ∀ (o : Outline) (frame : Frame) (c d e : Cursor),
        ((o.emitRun c).emit frame false d e).newline = o.newline ∧
          ((o.emitRun c).emit frame false d e).log = o.log := by
      intro o frame c d e
      obtain ⟨-, -, -, -, hnewline, hlog⟩ := emit_frame (o.emitRun c) frame false d e
      obtain ⟨-, -, -, -, hnewline', hlog'⟩ := emit_frame o o.run false o.mark c
      exact ⟨hnewline.trans hnewline', hlog.trans hlog'⟩
    simp only [emitBody_whole hwhole]
    refine ⟨hstack, hstack.frame, rfl, ?_, ?_, .behind ?_ (hbody.skip _)⟩
    · rw [(hkept _ _ _ _ _).1, (hkept _ _ _ _ _).1]
      exact h.newline
    · rw [(hkept _ _ _ _ _).2, (hkept _ _ _ _ _).2]
      exact h.log
    · exact hemits.emit _ false hpart ⟨rfl, hbody.position.advanceOver content⟩

/-- A block that is entered beside another is read beside it to its end. -/
theorem Beside.embedded (hwhole : options.splitStatements = false) (h : o.Beside text o')
    (hc : (⟨.start, text⟩ : Cursor).Reaches c) (hcd : c.Beside d) (context : Context) :
    Flow.Beside text (embedded options o context c) (embedded options o' context d) := by
  have hclose := hcd.matchingClose context.guardSet
  unfold Outline.embedded
  generalize c.matchingClose context.guardSet = close at hclose ⊢
  generalize d.matchingClose context.guardSet = close' at hclose ⊢
  cases hclose with
  | error depth issue => exact h.unclosed hc hcd context issue
  | ok found => exact h.closed hwhole hc hcd context found

theorem Beside.openBrace (hwhole : options.splitStatements = false) (h : o.Beside text o')
    (hc : (⟨.start, text⟩ : Cursor).Reaches c) (hcd : c.Beside d) {after : c.Later}
    {after' : d.Later} (hafter : after.cursor.Beside after'.cursor) :
    Flow.Beside text (openBrace options o c after) (openBrace options o' d after') := by
  have hopen := h.stack.openHeaderBody hcd.position
  unfold Outline.openBrace
  rw [h.head, h.stack.current]
  split
  · exact h.embedded hwhole hc hcd _
  · generalize o.stack.openHeaderBody c.position = a at hopen ⊢
    generalize o'.stack.openHeaderBody d.position = b at hopen ⊢
    cases hopen with
    | some hstack => exact .onward ((h.setStack hstack).setHead .start) hafter
    | none =>
      have hchange := h.changeStack (hc.trans after.reaches) hafter
        (h.stack.enter (if o.stack.current = .configurationBody then .configurationBody
          else .elementBody) .brace hcd.position)
      exact .onward (hchange.setHead .start) hafter

theorem Beside.closeBrace (h : o.Beside text o') (hc : (⟨.start, text⟩ : Cursor).Reaches c)
    (hcd : c.Beside d) {after : c.Later} {after' : d.Later}
    (hafter : after.cursor.Beside after'.cursor) :
    (o.closeBrace c after).Beside text (o'.closeBrace d after') := by
  obtain ⟨hclosed, hstack⟩ := h.stack.closeBrace
  have hchange := (h.changeStack (hc.trans after.reaches) hafter hstack).setHead .start
  unfold Outline.closeBrace
  simp only
  generalize o.stack.closeBrace.1 = a at hclosed ⊢
  generalize o'.stack.closeBrace.1 = b at hclosed ⊢
  cases hclosed with
  | ok => exact hchange
  | empty => exact hchange.fault rfl hcd
  | mismatch => exact hchange.fault rfl hcd

/-- The body of an origin block is read to its end, and then its declaration is left. -/
def originBlock (options : Options) (o : Outline) (context raw : Context) {c : Cursor}
    (brace : c.Later) : Flow c :=
  match embedded options { o with stack :=
      (o.stack.openHeaderBody brace.cursor.position).getD o.stack } raw brace.cursor with
  | .stop o => .stop o
  | .onward o next =>
    let next := next.since brace.reaches
    .onward (o.changeStack next.cursor (o.stack.exit context).2) next

theorem Beside.origin (hwhole : options.splitStatements = false) (h : o.Beside text o')
    {brace : c.Later} {brace' : d.Later} (hc : (⟨.start, text⟩ : Cursor).Reaches brace.cursor)
    (hbrace : brace.cursor.Beside brace'.cursor) (context raw : Context) :
    Flow.Beside text (originBlock options o context raw brace)
      (originBlock options o' context raw brace') := by
  have hopen := h.stack.openHeaderBody hbrace.position
  have hstack : ((o.stack.openHeaderBody brace.cursor.position).getD o.stack).Beside
      ((o'.stack.openHeaderBody brace'.cursor.position).getD o'.stack) := by
    generalize o.stack.openHeaderBody brace.cursor.position = a at hopen ⊢
    generalize o'.stack.openHeaderBody brace'.cursor.position = b at hopen ⊢
    cases hopen with
    | none => exact h.stack
    | some hstack => exact hstack
  have hflow := (h.setStack hstack).embedded hwhole hc hbrace raw
  unfold originBlock
  generalize Outline.embedded options _ raw brace.cursor = a at hflow ⊢
  generalize Outline.embedded options _ raw brace'.cursor = b at hflow ⊢
  cases hflow with
  | stop ends => exact .stop ends
  | @onward o₁ o₁' next next' state reader =>
    exact .onward (state.changeStack (hc.trans next.reaches) reader (state.stack.exit context))
      reader

theorem Beside.declaration (hwhole : options.splitStatements = false) (h : o.Beside text o')
    (hc : (⟨.start, text⟩ : Cursor).Reaches c) (hcd : c.Beside d) {after : c.Later}
    {after' : d.Later} (hafter : after.cursor.Beside after'.cursor) :
    Flow.Beside text (declaration options o c after) (declaration options o' d after') := by
  have hdeclared := hafter.declaration?
  have hother := h.setHead .other
  unfold Outline.declaration
  simp only
  generalize Cursor.declaration? after = a at hdeclared ⊢
  generalize Cursor.declaration? after' = b at hdeclared ⊢
  cases hdeclared with
  | none => exact .onward hother hafter
  | @some x y hheader =>
    obtain ⟨context, header⟩ := x
    obtain ⟨context', header'⟩ := y
    obtain ⟨rfl, hheader⟩ := hheader
    have hchange := hother.changeStack hc hcd (h.stack.enter context .header hcd.position)
    have horigin : Option.Rel (fun x y => x.1 = y.1 ∧ x.2.cursor.Beside y.2.cursor)
        (if context = .originBody then Cursor.originBody? header else none)
        (if context = .originBody then Cursor.originBody? header' else none) := by
      split
      · exact hcd.originBody? hheader
      · exact .none
    simp only
    generalize (if context = .originBody then Cursor.originBody? header else none) = a at horigin ⊢
    generalize (if context = .originBody then Cursor.originBody? header' else none) = b
      at horigin ⊢
    cases horigin with
    | none => exact .onward hchange hheader
    | @some x y hbrace =>
      obtain ⟨raw, brace⟩ := x
      obtain ⟨raw', brace'⟩ := y
      obtain ⟨rfl, hbrace⟩ := hbrace
      exact hchange.origin hwhole (hc.trans brace.reaches) hbrace context raw

theorem Beside.code (hwhole : options.splitStatements = false) (h : o.Beside text o')
    (hc : (⟨.start, text⟩ : Cursor).Reaches c) (hcd : c.Beside d) (ch : Char) {after : c.Later}
    {after' : d.Later} (hafter : after.cursor.Beside after'.cursor) :
    Flow.Beside text (code options o c ch after) (code options o' d ch after') := by
  have hbefore := h.beforeCode hc hcd (ch = '{')
  unfold Outline.code
  simp only
  generalize o.beforeCode (ch = '{') c = o₁ at hbefore ⊢
  generalize o'.beforeCode (ch = '{') d = o₁' at hbefore ⊢
  split
  · exact hbefore.openBrace hwhole hc hcd hafter
  · exact .onward (hbefore.closeBrace hc hcd hafter) hafter
  · have hchange := hbefore.changeStack (hc.trans after.reaches) hafter hbefore.stack.endHeader
    exact .onward (hchange.setHead .start) hafter
  · rw [hbefore.head]
    split
    · exact hbefore.declaration hwhole hc hcd hafter
    · split
      · have hpast := hafter.move isWordPart
        unfold Outline.headWord
        rw [hcd.textTo hpast]
        exact .onward (hbefore.setHead _) hpast
      · exact .onward (hbefore.setHead .other) hafter

/-! ## The walk -/

/-- Two passes stay beside each other. -/
theorem Beside.step (hwhole : options.splitStatements = false) (h : o.Beside text o')
    (hc : (⟨.start, text⟩ : Cursor).Reaches c) (hcd : c.Beside d) :
    Flow.Beside text (o.step options c) (o'.step options d) := by
  unfold Outline.step
  cases hfront : c.front (templateSet options) with
  | finish =>
    rw [hcd.finish hfront]
    exact .stop (h.finish hc hcd)
  | openRegion issue atEnd =>
    obtain ⟨issue', atEnd', hd, hissue, hend⟩ := hcd.openRegion hfront
    rw [hd]
    simp only [hissue.region]
    refine .onward (Beside.guardIssue ?_ hissue) hend
    split
    · exact h
    · exact h.beforeCode hc hcd false
  | region kind after =>
    obtain ⟨after', hd, hafter⟩ := hcd.region hfront
    rw [hd]
    cases kind with
    | string => exact .onward ((h.beforeCode hc hcd false).setHead .other) hafter
    | lineComment | blockComment | generatorComment => exact .onward h hafter
  | code ch after =>
    obtain ⟨after', hd, hafter⟩ := hcd.code hfront
    rw [hd]
    simp only
    split
    · rw [h.newline]
      exact .onward (h.setNewline _) hafter
    · exact h.code hwhole hc hcd ch hafter

theorem Beside.walk (hwhole : options.splitStatements = false) (h : o.Beside text o')
    (hc : (⟨.start, text⟩ : Cursor).Reaches c) (hcd : c.Beside d) :
    (walk options o c).Ends (walk options o' d) := by
  fun_induction Outline.walk options o c generalizing o' d with
  | case1 o c o₁ next hstep ih =>
    have hflow := h.step hwhole hc hcd
    rw [hstep] at hflow
    rw [Outline.walk.eq_def options o' d]
    generalize o'.step options d = flow at hflow ⊢
    cases hflow with
    | onward state reader => exact ih state (hc.trans next.reaches) reader
  | case2 o c o₁ hstep =>
    have hflow := h.step hwhole hc hcd
    rw [hstep] at hflow
    rw [Outline.walk.eq_def options o' d]
    generalize o'.step options d = flow at hflow ⊢
    cases hflow with
    | stop ends => exact ends

end Outline

end Polyglot
