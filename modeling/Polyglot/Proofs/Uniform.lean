-- SUMMARY: The structural pass with text blocks matched under the options, and where it parts.
import Polyglot.Proofs.Growth
import Polyglot.Proofs.Lone

/-!
# Text blocks under the options

Whether two hyphens begin a comment in template text is an option. The structural pass
heeds it in the runs of template text, but it matches the braces of text blocks under
the full guard set of the template language. `Outline.uniformOfText` is the pass that
heeds the option there too. Both passes go side by side up to the first text block that
does not close alike under both guard sets. Its text is all that is ever emitted under
its scope, so from there on nothing makes up for it (`Outline.ofText_compare`).
-/

namespace Polyglot

namespace Outline

/-! ## The uniform pass -/

/-- A step that matches the braces of a text block with the guard set of the template
text around it. -/
def uniformStep (options : Options) (o : Outline) (c : Cursor) : Flow c :=
  if c.rest.head? = some '{' && o.head = .keyword .text then
    embeddedBy options { o with newline := false } .textBlock c
      (c.matchingClose (templateSet options))
  else o.step options c

/-- Walk on from `c` to the end of the document in uniform steps. -/
def uniformWalk (options : Options) (o : Outline) (c : Cursor) : Outline :=
  match o.uniformStep options c with
  | .onward o next => uniformWalk options o next.cursor
  | .stop o => o
termination_by c.rest.length
decreasing_by exact next.length_lt

/-- The structural pass in uniform steps. -/
def uniformOfText (options : Options) (text : List Char) (log : Log) : Outline :=
  let c : Cursor := ⟨.start, text⟩
  let first := if text.head? = some EncodingIssue.byteOrderMark then c.advance else c
  uniformWalk options (initial c log) first

/-! ## Text blocks -/

variable {options : Options} {o : Outline} {c d : Cursor}

/-- The brace of a text block is ahead. -/
def TextAhead (o : Outline) (c : Cursor) : Prop :=
  c.rest.head? = some '{' ∧ o.head = .keyword .text

theorem uniformStep_of_text (h : o.TextAhead c) :
    o.uniformStep options c = embeddedBy options { o with newline := false } .textBlock c
      (c.matchingClose (templateSet options)) :=
  if_pos (by simpa [TextAhead] using h)

theorem uniformStep_of_not (h : ¬ o.TextAhead c) :
    o.uniformStep options c = o.step options c :=
  if_neg (by simpa [TextAhead] using h)

/-- A step at the brace of a text block reads the block, under the full guard set. -/
theorem step_of_text (h : o.TextAhead c) :
    o.step options c = embeddedBy options { o with newline := false } .textBlock c
        (c.matchingClose .template) ∧
      o.signsAt options c = [.block .textBlock c] := by
  obtain ⟨hbrace, hhead⟩ := h
  obtain ⟨pos, text⟩ := c
  obtain ⟨rest, rfl⟩ := List.head?_eq_some_iff.1 hbrace
  have hkind : (templateSet options).kindAt ('{' :: rest) = none := by
    simp [templateSet, GuardSet.withGeneratorComments, GuardSet.template, GuardSet.kindAt]
  obtain ⟨after, hfront, -⟩ := Cursor.front_eq_code hkind pos
  have hbefore : o.beforeCode true ⟨pos, '{' :: rest⟩ = { o with newline := false } := by
    simp [beforeCode]
  have hblank : isBlank '{' = false := by decide
  refine ⟨?_, ?_⟩
  · unfold step
    rw [hfront]
    simp [hblank, code, hbefore, openBrace, hhead, embedded, BlockKeyword.context,
      Context.guardSet]
  · unfold signsAt
    rw [hfront]
    simp [hblank, hbefore, codeSign?, hhead, lineSign?, BlockKeyword.context]

theorem eq_text_of_context {k : BlockKeyword} {rootAsElement : Bool} {around : Context}
    (h : k.context rootAsElement around = .textBlock) : k = .text := by
  cases k with
  | text => rfl
  | style => cases hlocal : BlockKeyword.isLocal rootAsElement around <;>
      simp [BlockKeyword.context, hlocal] at h
  | script => cases hlocal : BlockKeyword.isLocal rootAsElement around <;>
      simp [BlockKeyword.context, hlocal] at h

/-- Only a block keyword begins a text block. -/
theorem textAhead_of_mem (h : .block .textBlock d ∈ o.signsAt options c) : o.TextAhead c := by
  have hsteps := steps options o c
  generalize o.signsAt options c = signs at h hsteps
  generalize o.step options c = flow at hsteps
  have hline : ∀ isBrace, ¬ .block .textBlock d ∈ (o.lineSign? isBrace).toList := by
    intro isBrace hmem
    obtain ⟨hsign, -⟩ | ⟨hsign, -⟩ := o.beforeCode_cases isBrace c <;> simp [hsign] at hmem
  cases hsteps with
  | finish atEnd => cases h
  | gap next => cases h
  | openComment atEnd comment => cases h
  | openString atEnd string => exact absurd h (hline false)
  | @code isBrace signs flow acts =>
    have hmem := (List.mem_append.1 h).resolve_left (hline isBrace)
    cases acts with
    | pass next begins => cases hmem
    | openBody after brace opened => simp at hmem
    | openElement after brace noHeader kind => simp at hmem
    | closeBrace after brace => simp at hmem
    | semicolon after => simp at hmem
    | header next start declared => simp at hmem
    | block after keyword brace embeds =>
      simp only [List.mem_singleton, Sign.block.injEq] at hmem
      obtain rfl := eq_text_of_context hmem.1.symm
      refine ⟨brace, ?_⟩
      obtain ⟨-, hbefore⟩ | ⟨-, hbefore⟩ := o.beforeCode_cases isBrace c
      · rw [hbefore] at keyword
        cases keyword
      · rw [hbefore] at keyword
        exact keyword
    | originStop brace start isRaw isBrace embeds =>
      simp only [List.mem_singleton, Sign.block.injEq] at hmem
      rw [← hmem.1] at isRaw
      cases isRaw
    | origin brace start isRaw isBrace embeds =>
      simp only [List.mem_singleton, Sign.block.injEq] at hmem
      rw [← hmem.1] at isRaw
      cases isRaw

end Outline

/-! ## What is made of a text block -/

/-- The errors that a text block with its brace at `c` has if it is never closed. -/
def Unbalanced.errors (c : Cursor) (u : Unbalanced) : List ScanError :=
  (u.issue.elim Log.empty Log.empty.guardIssue).errors ++
    [(Fault.unclosedBlock .textBlock u.depth).found c.position]

/-- A text block ends at the same place by both searches, or has the same errors. -/
def Cursor.ClosesAlike {c : Cursor} :
    Except Unbalanced c.Later → Except Unbalanced c.Later → Prop
  | .ok a, .ok b => a.cursor = b.cursor
  | .error u, .error v => u.errors c = v.errors c
  | _, _ => False

namespace Outline

variable {options : Options} {o : Outline} {c d : Cursor} {k : Scope}
  {found : Except Unbalanced c.Later} {flow : Flow c}

/-- What is emitted of a text, unless it is empty. -/
def piece (text : List Char) (degraded : Bool) : List (List Char × Bool) :=
  if text = [] then [] else [(text, degraded)]

/-- What is emitted of a text block with its brace at `c`. -/
def blockPiece (c : Cursor) : Except Unbalanced c.Later → List (List Char × Bool)
  | .ok close => piece (trimEnd (c.advance.skipBlank.textTo close.cursor)) false
  | .error _ => piece c.advance.skipBlank.rest true

theorem length_blockPiece (c : Cursor) (found : Except Unbalanced c.Later) :
    (blockPiece c found).length ≤ 1 := by
  have hpiece : ∀ text degraded, (piece text degraded).length ≤ 1 := by
    intro text degraded
    unfold piece
    split <;> simp
  cases found with
  | ok close => exact hpiece _ _
  | error unbalanced => exact hpiece _ _

theorem under_emit (o : Outline) {frame : Frame} (degraded : Bool) (c d : Cursor) :
    Fragment.under k (o.emit frame degraded c d).emitted =
      (if frame.scope = k then piece (c.textTo d) degraded else []) ++
        Fragment.under k o.emitted := by
  unfold emit
  split
  · next hnil => simp [piece, hnil]
  · next content hcontent =>
    rw [Fragment.under_cons, piece, if_neg hcontent]
    split
    · next hscope => rw [Fragment.under_singleton hscope]
    · next hscope => rw [Fragment.under_eq_nil_iff.2 (by simpa using hscope)]

/-- What is added later under a scope that is left behind. -/
theorem Adds.under_eq {o' : Outline} (h : o.Adds o') (hdead : ¬ o.Live k)
    (hk : k ≤ o.stack.lastScope) : Fragment.under k o'.emitted = Fragment.under k o.emitted := by
  obtain ⟨fs, hfs, hin⟩ := h
  rw [hfs, Fragment.under_append, Fragment.under_eq_nil_iff.2 ?_, List.nil_append]
  rintro f hf rfl
  rcases hin f hf with hlive | hfresh
  · exact hdead hlive
  · exact Nat.not_lt_of_le hk hfresh

/-! ## The rest of the pass -/

/-- The pass may end in a state, once it has gone on so. -/
def Flow.Ends (flow : Flow c) (final : Outline) : Prop :=
  flow.Meets (fun o _ => o.Adds final) (· = final)

theorem walk_ends (options : Options) (o : Outline) (c : Cursor) :
    (o.step options c).Ends (walk options o c) := by
  rw [walk]
  cases o.step options c with
  | onward o' next => exact adds_walk options o' next.cursor
  | stop o' => exact rfl

theorem uniformStep_after (options : Options) (o : Outline) (c : Cursor) :
    (o.uniformStep options c).After o := by
  by_cases h : o.TextAhead c
  · have hline : o.Grows { o with newline := false } := .of_eq rfl rfl rfl
    rw [uniformStep_of_text h]
    exact hline.flow (embedsBy options _ .textBlock c _).after
  · rw [uniformStep_of_not h]
    exact (steps options o c).after

theorem adds_uniformWalk (options : Options) (o : Outline) (c : Cursor) :
    o.Adds (uniformWalk options o c) := by
  fun_induction uniformWalk options o c with
  | case1 o c o' next hstep ih =>
    have hafter := uniformStep_after options o c
    rw [hstep] at hafter
    exact hafter.trans_adds ih
  | case2 o c o' hstep =>
    have hafter := uniformStep_after options o c
    rw [hstep] at hafter
    exact hafter

theorem uniformWalk_ends (options : Options) (o : Outline) (c : Cursor) :
    (o.uniformStep options c).Ends (uniformWalk options o c) := by
  rw [uniformWalk]
  cases o.uniformStep options c with
  | onward o' next => exact adds_uniformWalk options o' next.cursor
  | stop o' => exact rfl

/-! ## The scope of a text block -/

theorem Bounded.not_live (hb : o.Bounded) : ¬ o.Live (o.stack.lastScope + 1) :=
  fun hlive => Nat.not_succ_le_self _ (hb.live _ hlive)

/-- Nothing was emitted under the next scope. -/
theorem Bounded.under_emitted (hb : o.Bounded) :
    Fragment.under (o.stack.lastScope + 1) o.emitted = [] := by
  rw [Fragment.under_eq_nil_iff]
  intro f hf hscope
  have hle := hb.emitted f hf
  rw [hscope] at hle
  exact Nat.not_succ_le_self _ hle

theorem Bounded.under_emitRun (hb : o.Bounded) (d : Cursor) :
    Fragment.under (o.stack.lastScope + 1) (o.emitRun d).emitted = [] := by
  have hrun : o.run.scope ≠ o.stack.lastScope + 1 :=
    fun hscope => hb.not_live (.inr (.inl hscope))
  rw [emitRun, under_emit, if_neg hrun, hb.under_emitted, List.append_nil]

/-- Once a block is read, its scope is not in use, as those of the open contexts are
older. -/
theorem Bounded.under_behind {o' final : Outline} (hb : o.Bounded) (hadds : o'.Adds final)
    (hstack : o'.stack = ⟨o.stack.entries, o.stack.lastScope + 1⟩)
    (hrun : o'.run = o.run ∨ o'.run = o.stack.frame) :
    Fragment.under (o.stack.lastScope + 1) final.emitted =
      Fragment.under (o.stack.lastScope + 1) o'.emitted := by
  refine hadds.under_eq ?_ (Nat.le_of_eq (by rw [hstack]))
  rintro (hroot | hscope | hopen)
  · exact absurd hroot (Nat.succ_ne_zero _)
  · rcases hrun with hrun | hrun <;> rw [hrun] at hscope
    · exact hb.not_live (.inr (.inl hscope))
    · rcases o.stack.scope_frame with hroot | hopen
      · exact Nat.succ_ne_zero _ (hscope.symm.trans hroot)
      · exact hb.not_live (.inr (.inr (hscope ▸ hopen)))
  · rw [hstack] at hopen
    exact hb.not_live (.inr (.inr hopen))

/-- A text block is emitted under a fresh scope, and nothing else ever is. -/
theorem EmbedsBy.under_fresh {final : Outline} (hb : o.Bounded)
    (h : EmbedsBy options o .textBlock c found flow) (hends : flow.Ends final) :
    Fragment.under (o.stack.lastScope + 1) final.emitted = blockPiece c found := by
  cases h with
  | @unclosed unbalanced unmatched =>
    obtain rfl := hends
    obtain ⟨log, hissue⟩ := o.elim_guardIssue unbalanced.issue
    have hbody : c.advance.skipBlank.Consumes c.advance.skipBlank.rest c.advance.skipBlank.toEnd :=
      ⟨(List.append_nil _).symm, rfl⟩
    have hfault : Fragment.under (o.stack.lastScope + 1)
        ((({ o with log := log } : Outline).emitRun c.advance.skipBlank).fault
          (.unclosedBlock .textBlock unbalanced.depth) c).emitted = [] := by
      rw [emitRun, emit_withLog]
      exact hb.under_emitRun _
    rw [hissue, under_emit, hfault, List.append_nil, hbody.textTo_eq, unmatched]
    exact if_pos rfl
  | @blank close closed blank =>
    rw [hb.under_behind hends rfl (.inl rfl), closed, blockPiece, blank]
    exact hb.under_emitted
  | @body close text closed trimmed nonempty =>
    have hframe : ¬ ((o.stack.enter .textBlock .brace c.position).frame.context = .scriptLocal ∧
        options.splitStatements) := fun h => Context.noConfusion h.1
    have halone : (⟨c.advance.skipBlank.position, text⟩ : Cursor).Consumes text
        ⟨c.advance.skipBlank.position.advanceOver text, []⟩ := ⟨by simp, rfl⟩
    rw [hb.under_behind hends rfl (.inr rfl), closed, blockPiece, trimmed]
    simp only [emitBody_of_not hframe]
    rw [under_emit, hb.under_emitRun, List.append_nil, halone.textTo_eq]
    exact if_pos rfl

/-- The errors of a text block that is never closed are the last ones. -/
theorem EmbedsBy.errors {final : Outline} {u : Unbalanced}
    (h : EmbedsBy options o .textBlock c (.error u) flow) (hends : flow.Ends final) :
    final.log.errors = o.log.errors ++ u.errors c := by
  cases h with
  | @unclosed unbalanced unmatched =>
    obtain rfl := hends
    cases unmatched
    have hissue : (u.issue.elim o o.guardIssue).log.errors =
        o.log.errors ++ (u.issue.elim Log.empty Log.empty.guardIssue).errors := by
      cases u.issue with
      | none => exact (List.append_nil _).symm
      | some issue =>
        simp only [Option.elim_some, guardIssue, Log.guardIssue]
        split
        · exact Log.errors_error _ _
        · exact (List.append_nil _).symm
    rw [log_emit, fault, emitRun, log_emit, Log.errors_error, hissue, List.append_assoc]
    rfl
  | blank closed blank => cases closed
  | body closed trimmed nonempty => cases closed

end Outline

/-! ## Blocks that do not close alike -/

namespace Cursor

/-- The body of a block begins behind the blanks after its brace. -/
theorem consumes_of_matchingClose {set : GuardSet} (hset : set.quotes ⊆ GuardSet.script.quotes)
    {c : Cursor} {close : c.Later} (h : c.matchingClose set = .ok close) :
    ∃ body rest, c.advance.skipBlank.Consumes body close.cursor ∧
      close.cursor.rest = '}' :: rest := by
  obtain ⟨code, hread, -, -⟩ := exists_body hset (matchingClose_ok h)
  obtain ⟨-, -, ⟨after, hbrace⟩, -, -⟩ := closeFrom_ok (matchingClose_ok h) (Nat.le_refl 1)
  obtain ⟨body, hbody⟩ := hread.reaches
  exact ⟨body, after.cursor.rest, hbody, (front_code hbrace).1⟩

end Cursor

/-- Bodies of one block that end in front of different braces differ, and not in white
space only. -/
theorem trimEnd_ne {body a b : Cursor} {v w r s : List Char} (hv : body.Consumes v a)
    (hw : body.Consumes w b) (ha : a.rest = '}' :: r) (hb : b.rest = '}' :: s) (hne : a ≠ b) :
    trimEnd v ≠ trimEnd w := by
  -- the longer body goes on with a brace where the shorter one ends
  have hlonger : ∀ {x y u : List Char}, y = x ++ '}' :: u → trimEnd x ≠ trimEnd y := by
    rintro x y u rfl htrim
    have hlt := length_lt_trimEnd x (show isUnicodeSpace '}' = false by decide) u
    rw [← htrim] at hlt
    exact Nat.not_le_of_lt hlt (length_trimEnd_le x)
  have hsame : v ++ '}' :: r = w ++ '}' :: s := by rw [← ha, ← hb, ← hv.1, ← hw.1]
  have heq : v = w → False := by
    rintro rfl
    obtain ⟨p, rest⟩ := a
    obtain ⟨q, rest'⟩ := b
    have hrest : rest = rest' := List.append_cancel_left (hv.1.symm.trans hw.1)
    exact hne (by rw [Cursor.mk.injEq]; exact ⟨hv.2.trans hw.2.symm, hrest⟩)
  obtain ⟨more, hlong, hmore⟩ | ⟨more, hlong, hmore⟩ := List.append_eq_append_iff.1 hsame
  · cases more with
    | nil => exact (heq (by simpa using hlong.symm)).elim
    | cons ch more =>
      obtain rfl : '}' = ch := (List.cons.inj hmore).1
      exact hlonger hlong
  · cases more with
    | nil => exact (heq (by simpa using hlong)).elim
    | cons ch more =>
      obtain rfl : '}' = ch := (List.cons.inj hmore).1
      exact (hlonger hlong).symm

namespace Outline

variable {options : Options} {o : Outline} {c : Cursor}

theorem piece_injective {v w : List Char} {degraded : Bool}
    (h : piece v degraded = piece w degraded) : v = w := by
  unfold piece at h
  split at h <;> split at h <;> simp_all

/-- Unless a text block closes alike by two searches, it has other text or other errors. -/
theorem blockPiece_ne {set set' : GuardSet} (hset : set.quotes ⊆ GuardSet.script.quotes)
    (hset' : set'.quotes ⊆ GuardSet.script.quotes)
    (h : ¬ Cursor.ClosesAlike (c.matchingClose set) (c.matchingClose set')) :
    blockPiece c (c.matchingClose set) ≠ blockPiece c (c.matchingClose set') ∨
      ∃ u v, c.matchingClose set = .error u ∧ c.matchingClose set' = .error v ∧
        u.errors c ≠ v.errors c := by
  -- a block that is closed has text ahead, so recovery has something to keep
  have hrest : ∀ {set : GuardSet} {close : c.Later}, set.quotes ⊆ GuardSet.script.quotes →
      c.matchingClose set = .ok close → c.advance.skipBlank.rest ≠ [] := by
    intro set close hset hclose
    obtain ⟨body, rest, hbody, hbrace⟩ := Cursor.consumes_of_matchingClose hset hclose
    rw [hbody.1, hbrace]
    simp
  have hmark : ∀ {v w : List Char}, w ≠ [] → piece v false ≠ piece w true := by
    intro v w hw heq
    rw [piece, piece, if_neg hw] at heq
    split at heq <;> cases heq
  cases hfirst : c.matchingClose set with
  | ok a =>
    refine .inl ?_
    cases hsecond : c.matchingClose set' with
    | ok b =>
      rw [hfirst, hsecond] at h
      obtain ⟨v, r, hv, ha⟩ := Cursor.consumes_of_matchingClose hset hfirst
      obtain ⟨w, s, hw, hb⟩ := Cursor.consumes_of_matchingClose hset' hsecond
      intro heq
      have htrim := piece_injective heq
      rw [hv.textTo_eq, hw.textTo_eq] at htrim
      exact trimEnd_ne hv hw ha hb h htrim
    | error v => exact hmark (hrest hset hfirst)
  | error u =>
    cases hsecond : c.matchingClose set' with
    | ok b => exact .inl (hmark (hrest hset' hsecond)).symm
    | error v =>
      rw [hfirst, hsecond] at h
      exact .inr ⟨u, v, rfl, rfl, h⟩

/-! ## Comparing the passes -/

/-- The same was emitted under the same numbers, and the errors are the same. -/
structure Alike (s t : Outline) : Prop where
  emitted : s.emitted = t.emitted
  issued : s.issued = t.issued
  errors : s.log.errors = t.log.errors

/-- The errors differ, or a scope with at most one fragment in both differs. -/
def Differs (s t : Outline) : Prop :=
  s.log.errors ≠ t.log.errors ∨
    ∃ k, (Fragment.under k s.emitted).length ≤ 1 ∧ (Fragment.under k t.emitted).length ≤ 1 ∧
      Fragment.under k s.emitted ≠ Fragment.under k t.emitted

theorem differs_of_text (hb : o.Bounded) (h : o.TextAhead c)
    (hunlike : ¬ Cursor.ClosesAlike (c.matchingClose .template)
      (c.matchingClose (templateSet options))) :
    (walk options o c).Differs (uniformWalk options o c) := by
  have hset : GuardSet.template.quotes ⊆ GuardSet.script.quotes := Context.quotes_subset .textBlock
  have hline : o.Grows { o with newline := false } := .of_eq rfl rfl rfl
  have hcode := walk_ends options o c
  have huniform := uniformWalk_ends options o c
  rw [(step_of_text h).1] at hcode
  rw [uniformStep_of_text h] at huniform
  have hreads := embedsBy options { o with newline := false } .textBlock c
  rcases blockPiece_ne hset (quotes_templateSet options) hunlike with hne | ⟨u, v, hu, hv, hne⟩
  · have hfirst := (hreads (c.matchingClose .template)).under_fresh (hline.bounded hb) hcode
    have hsecond :=
      (hreads (c.matchingClose (templateSet options))).under_fresh (hline.bounded hb) huniform
    refine .inr ⟨o.stack.lastScope + 1, ?_, ?_, ?_⟩
    · rw [hfirst]
      exact length_blockPiece _ _
    · rw [hsecond]
      exact length_blockPiece _ _
    · rw [hfirst, hsecond]
      exact hne
  · rw [hu] at hcode
    rw [hv] at huniform
    refine .inl fun hsame => hne ?_
    rw [(hreads (.error u)).errors hcode, (hreads (.error v)).errors huniform] at hsame
    exact List.append_cancel_left hsame

/-- A block that is never closed ends the pass, and what it was only shows in the log. -/
theorem embeddedBy_error (options : Options) (o : Outline) (context : Context) (c : Cursor)
    (u : Unbalanced) : ∃ log, embeddedBy options o context c (.error u) =
      .stop { (o.emitRun c.advance.skipBlank).emit
        { (o.stack.enter context .brace c.position).frame with context := .rawHtml } true
        c.advance.skipBlank c.advance.skipBlank.toEnd with log := log } := by
  obtain ⟨log, hissue⟩ := o.elim_guardIssue u.issue
  simp only [embeddedBy, hissue, emitRun, emit_withLog, fault]
  exact ⟨_, rfl⟩

theorem embeddedBy_error_alike {u v : Unbalanced} (h : u.errors c = v.errors c) :
    ∃ s t, embeddedBy options o .textBlock c (.error u) = .stop s ∧
      embeddedBy options o .textBlock c (.error v) = .stop t ∧ s.Alike t := by
  have hfirst := embedsBy options o .textBlock c (.error u)
  have hsecond := embedsBy options o .textBlock c (.error v)
  obtain ⟨log, hu⟩ := embeddedBy_error options o .textBlock c u
  obtain ⟨log', hv⟩ := embeddedBy_error options o .textBlock c v
  rw [hu] at hfirst
  rw [hv] at hsecond
  refine ⟨_, _, hu, hv, rfl, rfl, ?_⟩
  rw [hfirst.errors rfl, hsecond.errors rfl, h]

/-- At a text block that closes alike both passes go on alike, or end alike. -/
theorem step_alike (h : o.TextAhead c)
    (halike : Cursor.ClosesAlike (c.matchingClose .template)
      (c.matchingClose (templateSet options))) :
    o.step options c = o.uniformStep options c ∨
      ∃ s t, o.step options c = .stop s ∧ o.uniformStep options c = .stop t ∧ s.Alike t := by
  rw [(step_of_text h).1, uniformStep_of_text h]
  cases hfirst : c.matchingClose .template with
  | ok a =>
    cases hsecond : c.matchingClose (templateSet options) with
    | ok b =>
      rw [hfirst, hsecond] at halike
      obtain rfl : a = b := by
        obtain ⟨d, hd⟩ := a
        obtain ⟨e, he⟩ := b
        cases halike
        rfl
      exact .inl rfl
    | error v =>
      rw [hfirst, hsecond] at halike
      exact halike.elim
  | error u =>
    cases hsecond : c.matchingClose (templateSet options) with
    | ok b =>
      rw [hfirst, hsecond] at halike
      exact halike.elim
    | error v =>
      rw [hfirst, hsecond] at halike
      exact .inr (embeddedBy_error_alike halike)

/-- Every text block among the signs closes alike under the full guard set and under that
of the options. -/
def BlocksCloseAlike (options : Options) (signs : List Sign) : Prop :=
  ∀ d, .block .textBlock d ∈ signs →
    Cursor.ClosesAlike (d.matchingClose .template) (d.matchingClose (templateSet options))

theorem blocksCloseAlike_append {u v : List Sign} : BlocksCloseAlike options (u ++ v) ↔
    BlocksCloseAlike options u ∧ BlocksCloseAlike options v := by
  simp [BlocksCloseAlike, or_imp, forall_and]

theorem blocksCloseAlike_signsAt : BlocksCloseAlike options (o.signsAt options c) ↔
    (o.TextAhead c →
      Cursor.ClosesAlike (c.matchingClose .template) (c.matchingClose (templateSet options))) := by
  constructor
  · intro h htext
    exact h c (by simp [(step_of_text htext).2])
  · intro h d hd
    have htext := textAhead_of_mem hd
    rw [(step_of_text htext).2, List.mem_singleton] at hd
    cases hd
    exact h htext

/-- Where both passes stand at the same place, they go on alike or end alike, unless there
is a text block ahead that does not close alike. -/
theorem step_compare (h : BlocksCloseAlike options (o.signsAt options c)) :
    o.step options c = o.uniformStep options c ∨
      ∃ s t, o.step options c = .stop s ∧ o.uniformStep options c = .stop t ∧ s.Alike t := by
  by_cases htext : o.TextAhead c
  · exact step_alike htext (blocksCloseAlike_signsAt.1 h htext)
  · exact .inl (uniformStep_of_not htext).symm

/-- Both passes are alike if every text block closes alike, and else they differ. -/
theorem walk_compare (hb : o.Bounded) :
    (BlocksCloseAlike options (signs options o c) →
      (walk options o c).Alike (uniformWalk options o c)) ∧
    (¬ BlocksCloseAlike options (signs options o c) →
      (walk options o c).Differs (uniformWalk options o c)) := by
  have hat : ∀ {o : Outline} {c : Cursor}, o.Bounded →
      ¬ BlocksCloseAlike options (o.signsAt options c) →
        (walk options o c).Differs (uniformWalk options o c) := by
    intro o c hb hunlike
    rw [blocksCloseAlike_signsAt, Classical.not_imp] at hunlike
    exact differs_of_text hb hunlike.1 hunlike.2
  fun_induction walk options o c with
  | case1 o c o' next hstep ih =>
    have hafter := (steps options o c).after
    have hsigns : signs options o c = o.signsAt options c ++ signs options o' next.cursor := by
      rw [signs, hstep]
    have hwalk : walk options o c = walk options o' next.cursor := by rw [walk, hstep]
    rw [hstep] at hafter
    rw [hsigns, blocksCloseAlike_append, ← hwalk]
    by_cases halike : BlocksCloseAlike options (o.signsAt options c)
    · obtain hsame | ⟨s, t, hstop, -⟩ := step_compare halike
      · have huniform : uniformWalk options o c = uniformWalk options o' next.cursor := by
          rw [uniformWalk, ← hsame, hstep]
        rw [huniform, hwalk]
        simpa only [halike, true_and] using ih (hafter.bounded hb)
      · rw [hstep] at hstop
        cases hstop
    · exact ⟨fun h => absurd h.1 halike, fun _ => hat hb halike⟩
  | case2 o c o' hstep =>
    have hsigns : signs options o c = o.signsAt options c := by
      rw [signs, hstep, List.append_nil]
    have hwalk : walk options o c = o' := by rw [walk, hstep]
    rw [hsigns, ← hwalk]
    refine ⟨fun halike => ?_, hat hb⟩
    obtain hsame | ⟨s, t, hstop, huniform, hends⟩ := step_compare halike
    · rw [uniformWalk, ← hsame, hstep, hwalk]
      exact ⟨rfl, rfl, rfl⟩
    · rw [uniformWalk, huniform, hwalk]
      rw [hstep] at hstop
      cases hstop
      exact hends

/-- The passes over a document are alike if every text block closes alike, and else they
differ. -/
theorem ofText_compare (options : Options) (text : List Char) (log : Log) :
    (BlocksCloseAlike options (signsOfText options text log) →
      (ofText options text log).Alike (uniformOfText options text log)) ∧
    (¬ BlocksCloseAlike options (signsOfText options text log) →
      (ofText options text log).Differs (uniformOfText options text log)) :=
  walk_compare (bounded_initial _ _)

end Outline

end Polyglot
