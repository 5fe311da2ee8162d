-- SUMMARY: The structural pass is sound: its fragments tile the document, stay apart and hold whole bodies.
import Polyglot.Proofs.Assembly
import Polyglot.Proofs.Step

/-!
# Soundness of the structural pass

`Outline.Sound` is the invariant of the pass while local scripts are not cut into
statements: what was emitted tiles the document up to the mark, no two
neighbours share scope and context, and the body of every embedded block is read
to its end by the guard set of its own context. Each operation preserves it, so
the fragments of the whole pass have these properties.
-/

namespace Polyglot

/-! ## Stacks -/

/-- Only contexts of the template language are open, and no scope was given out twice. -/
def Stack.Sound (s : Stack) : Prop :=
  ∀ e ∈ s.entries, e.context.isTemplate ∧ e.scope ≤ s.lastScope

namespace Stack

variable {s : Stack}

theorem Sound.empty : Stack.empty.Sound := by
  intro e he
  cases he

theorem Sound.frame (h : s.Sound) : s.frame.context.isTemplate ∧ s.frame.scope ≤ s.lastScope := by
  obtain ⟨entries, lastScope⟩ := s
  cases entries with
  | nil => exact ⟨rfl, Nat.zero_le _⟩
  | cons e below => exact h e List.mem_cons_self

/-- A stack with some of the entries is sound too. -/
theorem Sound.of_subset {s' : Stack} (h : s.Sound) (hentries : s'.entries ⊆ s.entries)
    (hscope : s'.lastScope = s.lastScope) : s'.Sound := by
  intro e he
  rw [hscope]
  exact h e (hentries he)

theorem Sound.enter (h : s.Sound) {context : Context} (hcontext : context.isTemplate)
    (kind : EntryKind) (pos : Position) : (s.enter context kind pos).Sound := by
  intro e he
  rcases List.mem_cons.1 he with rfl | he
  · exact ⟨hcontext, Nat.le_refl _⟩
  · exact ⟨(h e he).1, Nat.le_succ_of_le (h e he).2⟩

theorem Sound.openHeaderBody (h : s.Sound) {s' : Stack} {pos : Position}
    (hs : s.openHeaderBody pos = some s') : s'.Sound ∧ s'.lastScope = s.lastScope := by
  obtain ⟨e, below, lastScope, rfl, rfl⟩ := openHeaderBody_some hs
  refine ⟨fun x hx => ?_, rfl⟩
  rcases List.mem_cons.1 hx with rfl | hx
  · exact h e List.mem_cons_self
  · exact h x (List.mem_cons_of_mem e hx)

/-- The body of an origin block opens, if a header is open. -/
theorem Sound.openHeaderBody_getD (h : s.Sound) (pos : Position) :
    ((s.openHeaderBody pos).getD s).Sound ∧
      ((s.openHeaderBody pos).getD s).lastScope = s.lastScope := by
  cases hopen : s.openHeaderBody pos with
  | none => exact ⟨h, rfl⟩
  | some stack => exact h.openHeaderBody hopen

/-- To close contexts keeps a stack sound. -/
theorem Sound.close (h : s.Sound) {t : Stack}
    (hsuffix : t.entries <:+ s.entries ∧ t.lastScope = s.lastScope) :
    t.Sound ∧ t.lastScope = s.lastScope :=
  ⟨h.of_subset hsuffix.1.subset hsuffix.2, hsuffix.2⟩

theorem Sound.exit (h : s.Sound) (expected : Context) :
    (s.exit expected).2.Sound ∧ (s.exit expected).2.lastScope = s.lastScope :=
  h.close (s.exit_suffix expected)

theorem Sound.closeBrace (h : s.Sound) :
    s.closeBrace.2.Sound ∧ s.closeBrace.2.lastScope = s.lastScope := h.close s.closeBrace_suffix

theorem Sound.endHeader (h : s.Sound) :
    s.endHeader.2.Sound ∧ s.endHeader.2.lastScope = s.lastScope := h.close s.endHeader_suffix

end Stack

/-! ## What was emitted -/

/-- The fragment is read to its end by the guard set of its context, and its braces match. -/
def Fragment.IsBody (f : Fragment) : Prop :=
  ∃ code, f.cursor.Passes f.context.guardSet code ⟨f.stop, []⟩ ∧ BracesMatch code

/-- What is known of each fragment of the structural pass. -/
structure Fragment.IsSound (f : Fragment) : Prop where
  body : ¬ f.context.isTemplate → f.degraded = false → f.IsBody
  raw : f.degraded → f.context = .rawHtml
  unclassified : f.features = .none ∧ f.literals = []

/-- Template text needs no matched braces. -/
theorem Frame.isSound_of_isTemplate {frame : Frame} (h : frame.context.isTemplate)
    (id : FragmentId) (content : List Char) (start stop : Position) :
    (frame.fragment false id content start stop).IsSound where
  body := fun hnot => absurd h hnot
  raw := fun hdegraded => by cases hdegraded
  unclassified := ⟨rfl, rfl⟩

namespace Outline

variable {doc : Cursor} {o : Outline} {c d e : Cursor}

/-! ## Emitting -/

/-- What is known of the fragments emitted so far, last one first: they tile the
document up to a cursor, and their scopes are within a bound. -/
structure Emitted (doc : Cursor) (emitted : List Fragment) (d : Cursor) (bound : Scope) : Prop where
  tiles : Fragment.Tiles (fun _ => True) doc emitted.reverse d
  apart : emitted.reverse.IsChain Fragment.Apart
  sound : ∀ f ∈ emitted, f.IsSound
  scopes : ∀ f ∈ emitted, f.scope ≤ bound

theorem Emitted.mono {emitted : List Fragment} {m n : Scope} (h : Emitted doc emitted d m)
    (hmn : m ≤ n) : Emitted doc emitted d n :=
  ⟨h.tiles, h.apart, h.sound, fun f hf => Nat.le_trans (h.scopes f hf) hmn⟩

theorem Emitted.cons {emitted : List Fragment} {m : Scope} {f : Fragment}
    (h : Emitted doc emitted d m) (hf : f.Covers d e) (hscope : f.scope ≤ m) (hsound : f.IsSound)
    (hapart : ∀ g ∈ emitted.head?, g.Apart f) : Emitted doc (f :: emitted) e m where
  tiles := by
    rw [List.reverse_cons]
    exact h.tiles.concat hf trivial
  apart := by
    rw [List.reverse_cons, List.isChain_append]
    refine ⟨h.apart, List.isChain_singleton f, ?_⟩
    intro g hg f' hf'
    obtain rfl : f = f' := by simpa using hf'
    exact hapart g (by simpa using hg)
  sound := by
    intro g hg
    rcases List.mem_cons.1 hg with rfl | hg
    · exact hsound
    · exact h.sound g hg
  scopes := by
    intro g hg
    rcases List.mem_cons.1 hg with rfl | hg
    · exact hscope
    · exact h.scopes g hg

theorem Emitted.emit {frame : Frame} {degraded : Bool} {m : Scope} (h : Emitted doc o.emitted d m)
    (hde : d.Reaches e) (hscope : frame.scope ≤ m)
    (hsound : ∀ id content start stop, (frame.fragment degraded id content start stop).IsSound)
    (hapart : ∀ g ∈ o.emitted.head?, g.toFrame.Apart frame) :
    Emitted doc (o.emit frame degraded d e).emitted e m := by
  obtain ⟨content, hread⟩ := hde
  by_cases hne : content = []
  · subst hne
    rw [emit_nil o frame degraded hread, hread.eq_of_nil]
    exact h
  · rw [emit_text o frame degraded hread hne]
    exact h.cons ⟨rfl, rfl, hread, hne⟩ hscope (hsound _ _ _ _) hapart

/-! ## The invariant -/

/-- The invariant of the structural pass at a cursor. -/
structure Sound (doc : Cursor) (o : Outline) (c : Cursor) : Prop where
  emitted : Emitted doc o.emitted o.mark o.stack.lastScope
  stack : o.stack.Sound
  ahead : o.mark.Reaches c
  template : o.run.context.isTemplate
  scope : o.run.scope ≤ o.stack.lastScope
  apart : ∀ f ∈ o.emitted.head?, f.toFrame.Apart o.run

/-- The invariant is about the stack, the run and what was emitted. -/
theorem Sound.of_eq {o' : Outline} (h : o.Sound doc c) (hemitted : o'.emitted = o.emitted)
    (hstack : o'.stack = o.stack) (hmark : o'.mark = o.mark) (hrun : o'.run = o.run) :
    o'.Sound doc c := by
  obtain ⟨emitted, stack, ahead, template, scope, apart⟩ := h
  rw [← hemitted] at emitted apart
  rw [← hstack] at emitted stack scope
  rw [← hmark] at emitted ahead
  rw [← hrun] at template scope apart
  exact ⟨emitted, stack, ahead, template, scope, apart⟩

theorem Sound.onward (h : o.Sound doc c) (hcd : c.Reaches d) : o.Sound doc d :=
  ⟨h.emitted, h.stack, h.ahead.trans hcd, h.template, h.scope, h.apart⟩

/-- The run is emitted, unless it is empty. -/
theorem Sound.emitRun (h : o.Sound doc c) (hmark : o.mark.Reaches d) :
    Emitted doc (o.emitRun d).emitted d o.stack.lastScope :=
  h.emitted.emit hmark h.scope (Frame.isSound_of_isTemplate h.template) h.apart

/-- A frame with a fresh scope lies apart from what was emitted with the run, and so does
one that lies apart from a run with some text. -/
theorem Sound.emitRun_apart (h : o.Sound doc c) (hmark : o.mark.Reaches d) {a : Frame}
    (ha : o.stack.lastScope < a.scope ∨ o.mark.StrictlyReaches d ∧ o.run.Apart a) :
    ∀ f ∈ (o.emitRun d).emitted.head?, f.toFrame.Apart a := by
  rcases ha with hfresh | ⟨⟨ch, u, hread⟩, hrun⟩
  · rintro f hf ⟨hscope, -⟩
    have hold := (h.emitRun hmark).scopes f (List.mem_of_mem_head? hf)
    rw [hscope] at hold
    exact Nat.not_lt_of_le hold hfresh
  · rw [Outline.emitRun, emit_text o o.run false hread (List.cons_ne_nil ch u)]
    rintro f hf
    obtain rfl : _ = f := by simpa using hf
    exact hrun

/-- A change of context, behind some text of the run or to a fresh scope. -/
theorem Sound.changeStack (h : o.Sound doc c) (hmark : o.mark.Reaches d) {stack : Stack}
    (hstack : stack.Sound) (hscope : o.stack.lastScope ≤ stack.lastScope)
    (hnew : o.mark.StrictlyReaches d ∨ o.stack.lastScope < stack.frame.scope) :
    (o.changeStack d stack).Sound doc d := by
  by_cases hcontext : stack.current = o.run.context
  · rw [changeStack_of_eq o d hcontext]
    exact ⟨h.emitted.mono hscope, hstack, hmark, h.template, Nat.le_trans h.scope hscope, h.apart⟩
  · rw [changeStack_of_ne o d hcontext]
    obtain ⟨htemplate, hframe⟩ := hstack.frame
    have hrun : o.run.Apart stack.frame := fun hsame => hcontext hsame.2.symm
    exact ⟨(h.emitRun hmark).mono hscope, hstack, .refl d, htemplate, hframe,
      h.emitRun_apart hmark (hnew.symm.imp_right fun hstrict => ⟨hstrict, hrun⟩)⟩

/-- A stack with at least as many scopes given out. -/
theorem Sound.setStack (h : o.Sound doc c) {stack : Stack} (hstack : stack.Sound)
    (hscope : o.stack.lastScope ≤ stack.lastScope) :
    ({ o with stack := stack } : Outline).Sound doc c :=
  ⟨h.emitted.mono hscope, hstack, h.ahead, h.template, Nat.le_trans h.scope hscope, h.apart⟩

/-! ## Code -/

/-- The fragments emitted tile the whole document. -/
def Finished (doc : Cursor) (o : Outline) : Prop :=
  ∃ e bound, e.rest = [] ∧ Emitted doc o.emitted e bound

theorem Sound.beforeCode (h : o.Sound doc c) (hnew : o.newline → o.mark.StrictlyReaches c)
    (isBrace : Bool) : (o.beforeCode isBrace c).Sound doc c ∧
      (o.beforeCode isBrace c).newline = false := by
  unfold Outline.beforeCode
  split
  · next hcond =>
    simp only [Bool.and_eq_true] at hcond
    obtain ⟨hstack, hscope⟩ := h.stack.endHeader
    have hchange := h.changeStack h.ahead hstack (Nat.le_of_eq hscope.symm) (.inl (hnew hcond.1))
    exact ⟨hchange.of_eq rfl rfl rfl rfl, rfl⟩
  · exact ⟨h.of_eq rfl rfl rfl rfl, rfl⟩

theorem Sound.finish (h : o.Sound doc c) (hc : c.rest = []) : Finished doc (o.finish c) := by
  refine ⟨c, o.stack.lastScope, hc, ?_⟩
  have := h.emitRun h.ahead
  simp only [Outline.finish]
  split <;> exact this

/-! ## Embedded blocks -/

theorem Sound.embeds {options : Options} (hwhole : options.splitStatements = false)
    (h : o.Sound doc c) {context : Context} {flow : Flow c}
    (hflow : Embeds options o context c flow) :
    flow.Meets (fun o' d => o'.Sound doc d ∧ o'.mark.StrictlyReaches d ∧ o'.newline = o.newline)
      (Finished doc) := by
  have hmark : o.mark.Reaches c.advance.skipBlank :=
    h.ahead.trans (c.reaches_advance.trans (Cursor.reaches_eatWhile isBlank _))
  -- the scope of the block is fresh, so its body lies apart from what is there already
  have hscope : o.stack.lastScope < (o.stack.enter context .brace c.position).frame.scope :=
    Nat.lt_succ_self _
  have hstack : (⟨o.stack.entries, o.stack.lastScope + 1⟩ : Stack).Sound :=
    fun e he => ⟨(h.stack e he).1, Nat.le_succ_of_le (h.stack e he).2⟩
  cases hflow with
  | @unclosed unbalanced unmatched =>
    obtain ⟨log, hissue⟩ := o.elim_guardIssue unbalanced.issue
    have hlogged : ({ o with log := log } : Outline).Sound doc c := h.of_eq rfl rfl rfl rfl
    rw [hissue]
    refine ⟨c.advance.skipBlank.toEnd, o.stack.lastScope + 1, rfl, ?_⟩
    refine Emitted.emit ((hlogged.emitRun hmark).mono (Nat.le_succ _)) (Cursor.reaches_toEnd _)
      (Nat.le_refl _) ?_ (hlogged.emitRun_apart hmark (.inl hscope))
    intro id content start stop
    exact ⟨fun _ hsound => Bool.noConfusion hsound, fun _ => rfl, rfl, rfl⟩
  | @blank close closed =>
    have hset := (h.onward close.advance.reaches).setStack hstack (Nat.le_succ _)
    exact ⟨hset.of_eq rfl rfl rfl rfl, h.ahead.trans_strictly close.advance.strictlyReaches, rfl⟩
  | @body close text closed trimmed nonempty =>
    obtain ⟨text', space, htext, hread, hrest, hmatch⟩ :=
      Cursor.blockText_of_matchingClose closed rfl
    obtain rfl : text' = text := htext.symm.trans trimmed
    have hend : close.cursor.StrictlyReaches close.advance.cursor :=
      Cursor.strictlyReaches_advance hrest
    simp only [Flow.Meets, emitBody_whole hwhole]
    generalize c.advance.skipBlank = body at *
    -- the text of the block ends where the next run begins
    let behind : Cursor := ⟨body.position.advanceOver text', space ++ close.cursor.rest⟩
    have hbefore : body.Consumes text' behind := ⟨by rw [hread.1, List.append_assoc], rfl⟩
    have hspace : behind.Reaches close.cursor :=
      ⟨space, rfl, by rw [hread.2, Position.advanceOver_append]⟩
    have halone : (⟨body.position, text'⟩ : Cursor).Consumes text'
        ⟨body.position.advanceOver text', []⟩ := ⟨by simp, rfl⟩
    rw [emit_text _ _ _ halone nonempty, Cursor.skip_of_consumes hbefore]
    refine ⟨⟨?_, hstack, ?_, ?_, ?_, ?_⟩, ?_, ?_⟩
    · refine ((h.emitRun hmark).mono (Nat.le_succ _)).cons ⟨rfl, rfl, hbefore, nonempty⟩
        (Nat.le_refl _) ?_ (h.emitRun_apart hmark (.inl hscope))
      refine ⟨fun hcontext _ => ?_, fun hdegraded => Bool.noConfusion hdegraded, rfl, rfl⟩
      obtain ⟨code, hcode, hpasses⟩ := hmatch hcontext
      exact ⟨code, hpasses, hcode⟩
    · exact hspace.trans hend.reaches
    · exact h.stack.frame.1
    · exact Nat.le_succ_of_le h.stack.frame.2
    · rintro f hf ⟨hsame, -⟩
      obtain rfl : _ = f := by simpa using hf
      have hle := h.stack.frame.2
      have hfresh : o.stack.lastScope + 1 = o.stack.frame.scope := hsame
      rw [← hfresh] at hle
      exact Nat.not_succ_le_self _ hle
    · exact hspace.trans_strictly hend
    · exact (emit_frame o o.run false o.mark body).2.2.2.2.1

/-! ## Between two steps -/

/-- The invariant between two steps. Where a line feed was read, it lies behind the mark. -/
structure Ready (doc : Cursor) (o : Outline) (c : Cursor) : Prop where
  sound : o.Sound doc c
  moved : o.newline → o.mark.StrictlyReaches c

theorem Sound.ready (h : o.Sound doc c) (hnew : o.newline = false) : o.Ready doc c :=
  ⟨h, fun htrue => by rw [hnew] at htrue; cases htrue⟩

theorem Ready.of_eq {o' : Outline} (h : o.Ready doc c) (hemitted : o'.emitted = o.emitted)
    (hstack : o'.stack = o.stack) (hmark : o'.mark = o.mark) (hrun : o'.run = o.run)
    (hnewline : o'.newline = o.newline) : o'.Ready doc c := by
  refine ⟨h.sound.of_eq hemitted hstack hmark hrun, ?_⟩
  rw [hnewline, hmark]
  exact h.moved

theorem Ready.onward (h : o.Ready doc c) (hcd : c.Reaches d) : o.Ready doc d :=
  ⟨h.sound.onward hcd, fun hnew => (h.moved hnew).trans_reaches hcd⟩

/-! ## Steps -/

/-- A declaration opens a context of the template language. -/
theorem isTemplate_of_declared {word : String} {context : Context}
    (h : Context.ofDeclaration? word = some context) : context.isTemplate := by
  unfold Context.ofDeclaration? at h
  split at h <;> cases h <;> rfl

/-- Behind a character the run has some text. -/
theorem Sound.changeStack_later (h : o.Sound doc c) (hnew : o.newline = false) (next : c.Later)
    {stack : Stack} (hstack : stack.Sound) (hscope : o.stack.lastScope ≤ stack.lastScope) :
    (o.changeStack next.cursor stack).Ready doc next.cursor := by
  refine (h.changeStack (h.ahead.trans next.reaches) hstack hscope
    (.inl (h.ahead.trans_strictly next.strictlyReaches))).ready ?_
  exact (changeStack_frame o next.cursor stack).2.2.1.trans hnew

/-- The header of a declaration has a fresh scope, so the run before it may be empty. -/
theorem Sound.header (h : o.Sound doc c) {context : Context} (hcontext : context.isTemplate) :
    (({ o with head := .other } : Outline).changeStack c
      (o.stack.enter context .header c.position)).Sound doc c := by
  have h' : ({ o with head := .other } : Outline).Sound doc c := h.of_eq rfl rfl rfl rfl
  exact h'.changeStack h.ahead (h.stack.enter hcontext .header c.position) (Nat.le_succ _)
    (.inr (Nat.lt_succ_self _))

theorem Sound.openOrigin (h : o.Sound doc c) (brace : c.Later) :
    (o.openOrigin c brace.cursor).Sound doc brace.cursor := by
  have horigin : Context.originBody.isTemplate := rfl
  have hheader := (h.header horigin).onward brace.reaches
  obtain ⟨hstack, hscope⟩ := hheader.stack.openHeaderBody_getD brace.cursor.position
  exact hheader.setStack hstack (Nat.le_of_eq hscope.symm)

/-- A character of code. No line feed in front of it is left to count. -/
theorem Sound.acts {options : Options} (hwhole : options.splitStatements = false)
    (h : o.Sound doc c) (hnew : o.newline = false) {signs : List Sign} {flow : Flow c}
    (hflow : Acts options o c signs flow) : flow.Meets (Ready doc) (Finished doc) := by
  have hheader : ∀ {context : Context}, (({ o with head := .other } : Outline).changeStack c
      (o.stack.enter context .header c.position)).newline = false :=
    (changeStack_frame _ c _).2.2.1.trans hnew
  cases hflow with
  | pass next begins => exact ((h.onward next.reaches).ready hnew).of_eq rfl rfl rfl rfl rfl
  | openBody after brace opened =>
    obtain ⟨hstack, hscope⟩ := h.stack.openHeaderBody opened
    have hset := (h.onward after.reaches).setStack hstack (Nat.le_of_eq hscope.symm)
    exact (hset.ready hnew).of_eq rfl rfl rfl rfl rfl
  | @openElement context after brace noHeader kind =>
    have hcontext : context.isTemplate := by
      obtain rfl | rfl := kind <;> rfl
    exact (h.changeStack_later hnew after (h.stack.enter hcontext .brace c.position)
      (Nat.le_succ _)).of_eq rfl rfl rfl rfl rfl
  | closeBrace after brace =>
    obtain ⟨hstack, hscope⟩ := h.stack.closeBrace
    have hclosed := h.changeStack_later hnew after hstack (Nat.le_of_eq hscope.symm)
    simp only [Outline.closeBrace]
    split <;> exact hclosed.of_eq rfl rfl rfl rfl rfl
  | semicolon after =>
    obtain ⟨hstack, hscope⟩ := h.stack.endHeader
    exact (h.changeStack_later hnew after hstack (Nat.le_of_eq hscope.symm)).of_eq
      rfl rfl rfl rfl rfl
  | header next start declared =>
    obtain ⟨word, hword⟩ := declared
    exact ((h.header (isTemplate_of_declared hword)).onward next.reaches).ready hheader
  | block after keyword brace embeds =>
    exact (h.embeds hwhole embeds).imp fun o' d hbody => hbody.1.ready (hbody.2.2.trans hnew)
  | originStop brace start isRaw isBrace embeds => exact (h.openOrigin brace).embeds hwhole embeds
  | @origin raw o' brace next start isRaw isBrace embeds =>
    obtain ⟨hnext, hstrict, hnewline⟩ := (h.openOrigin brace).embeds hwhole embeds
    obtain ⟨hstack, hscope⟩ := hnext.stack.exit .originBody
    have hleft := hnext.changeStack hnext.ahead hstack (Nat.le_of_eq hscope.symm) (.inl hstrict)
    exact hleft.ready ((changeStack_frame o' _ _).2.2.1.trans (hnewline.trans hheader))

/-- A step keeps the invariant or ends the pass with a tiling of the whole document. -/
theorem Ready.steps {options : Options} (hwhole : options.splitStatements = false)
    (h : o.Ready doc c) {signs : List Sign} {flow : Flow c}
    (hflow : Steps options o c signs flow) : flow.Meets (Ready doc) (Finished doc) := by
  cases hflow with
  | finish atEnd => exact h.sound.finish atEnd
  | gap next =>
    exact ⟨(h.sound.onward next.reaches).of_eq rfl rfl rfl rfl,
      fun _ => h.sound.ahead.trans_strictly next.strictlyReaches⟩
  | @openComment issue next atEnd comment =>
    exact (h.onward next.reaches).of_eq rfl rfl rfl rfl rfl
  | @openString issue next atEnd string =>
    obtain ⟨hsound, hnew⟩ := h.sound.beforeCode h.moved false
    exact ((hsound.onward next.reaches).ready hnew).of_eq rfl rfl rfl rfl rfl
  | code acts =>
    obtain ⟨hsound, hnew⟩ := h.sound.beforeCode h.moved _
    exact hsound.acts hwhole hnew acts

/-- Without cuts in local scripts, the structural pass tiles the document. -/
theorem finished_ofText {options : Options} (hwhole : options.splitStatements = false)
    (text : List Char) (log : Log) : Finished ⟨.start, text⟩ (ofText options text log) := by
  have hinitial : (initial ⟨.start, text⟩ log).Sound ⟨.start, text⟩ ⟨.start, text⟩ := by
    refine ⟨⟨.nil _, .nil, ?_, ?_⟩, .empty, .refl _, rfl, Nat.le_refl _, ?_⟩
    · intro f hf
      cases hf
    · intro f hf
      cases hf
    · intro f hf
      cases hf
  exact ofText_meets (I := fun o c _ => o.Ready ⟨.start, text⟩ c)
    (F := fun o _ => o.Finished ⟨.start, text⟩) (fun h hflow => h.steps hwhole hflow)
    fun _ hfirst => (hinitial.onward hfirst).ready rfl

end Outline

end Polyglot
