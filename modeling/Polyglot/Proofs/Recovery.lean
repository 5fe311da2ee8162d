-- SUMMARY: What error recovery leaves in a scan: one unclosed block ends the pass, with one degraded fragment.
import Polyglot.Proofs.Matching

/-!
# Error recovery

Until it meets an embedded block that is never closed, the structural pass logs no
unbalanced braces and emits nothing degraded (`Outline.Intact`), and an unterminated
region uses up the document. Such a block ends the pass. `Outline.Outcome` says how
the pass can end, and `Scan.Recovers` what is left of that in the scan.
-/

namespace Polyglot

/-! ## Unterminated regions -/

namespace Log

/-- How many regions ran to the end of the text: strings are errors, comments warnings. -/
def openRegions (log : Log) : Nat :=
  log.errors.countP (·.kind = .unterminatedString) +
    log.warnings.countP (·.kind = .unterminatedBlockComment)

theorem openRegions_error (log : Log) {e : ScanError} (he : e.kind ≠ .unterminatedString) :
    (log.error e).openRegions = log.openRegions := by
  simp [openRegions, List.countP_append, he]

theorem openRegions_guardIssue (log : Log) (issue : GuardIssue) :
    (log.guardIssue issue).openRegions = log.openRegions + 1 := by
  unfold guardIssue openRegions
  cases issue.region with
  | string quote => simp [List.countP_append, Fault.found, Fault.kind, Nat.add_right_comm]
  | blockComment => simp [List.countP_append, Remark.found, Remark.kind, Nat.add_assoc]

end Log

namespace Outline

variable {options : Options} {o : Outline} {c : Cursor} {n : Nat} {before signs : List Sign}

/-! ## Before the end -/

/-- No unclosed block was met, and so many regions ran to the end of the document. -/
structure Intact (regions : Nat) (o : Outline) : Prop where
  balanced : ∀ e ∈ o.log.errors, e.kind ≠ .unbalancedBraces
  regions : o.log.openRegions = regions
  whole : ∀ f ∈ o.emitted, f.degraded = false

theorem Intact.of_eq {o' : Outline} (h : o.Intact n) (hlog : o'.log = o.log)
    (hwhole : ∀ f ∈ o'.emitted, f.degraded = false) : o'.Intact n := by
  obtain ⟨balanced, regions, -⟩ := h
  rw [← hlog] at balanced regions
  exact ⟨balanced, regions, hwhole⟩

theorem Intact.emitRun (h : o.Intact n) (c : Cursor) : (o.emitRun c).Intact n :=
  h.of_eq (log_emit _ _ _ _ _) (emitted_emit h.whole (fun _ _ _ _ => rfl) _ _)

theorem Intact.changeStack (h : o.Intact n) (c : Cursor) (stack : Stack) :
    (o.changeStack c stack).Intact n :=
  h.of_eq (log_changeStack o c stack) (emitted_changeStack h.whole (fun _ _ _ _ => rfl) c stack)

theorem Intact.beforeCode (h : o.Intact n) (isBrace : Bool) (c : Cursor) :
    (o.beforeCode isBrace c).Intact n :=
  h.of_eq (log_beforeCode o isBrace c) (emitted_beforeCode h.whole (fun _ _ _ _ => rfl) isBrace c)

theorem Intact.guardIssue (h : o.Intact n) (issue : GuardIssue) :
    (o.guardIssue issue).Intact (n + 1) where
  balanced := by
    have hbalanced := h.balanced
    unfold Outline.guardIssue Log.guardIssue
    split
    · intro e he
      rw [Log.errors_error] at he
      rcases List.mem_append.1 he with he | he
      · exact hbalanced e he
      · rw [List.mem_singleton.1 he]
        exact ErrorKind.noConfusion
    · exact hbalanced
  regions := by
    rw [← h.regions]
    exact Log.openRegions_guardIssue o.log issue
  whole := h.whole

theorem Intact.openOrigin (h : o.Intact n) (c brace : Cursor) :
    (o.openOrigin c brace).Intact n := by
  have hother : ({ o with head := .other } : Outline).Intact n := h.of_eq rfl h.whole
  have hentered := hother.changeStack c (o.stack.enter .originBody .header c.position)
  exact hentered.of_eq rfl hentered.whole

theorem Intact.closeBrace (h : o.Intact n) (after : c.Later) : (o.closeBrace c after).Intact n := by
  have hwhole : ∀ f ∈ (o.closeBrace c after).emitted, f.degraded = false := by
    have hchange := (h.changeStack after.cursor o.stack.closeBrace.2).whole
    unfold Outline.closeBrace
    simp only
    split <;> exact hchange
  obtain hlog | ⟨f, hf, hlog⟩ := log_closeBrace o c after
  · exact h.of_eq hlog hwhole
  · refine ⟨fun e he => ?_, ?_, hwhole⟩
    · rw [hlog, Log.errors_error] at he
      rcases List.mem_append.1 he with he | he
      · exact h.balanced e he
      · have hkind : e.kind = .contextMismatch := by
          rw [List.mem_singleton.1 he]
          exact hf
        rw [hkind]
        exact ErrorKind.noConfusion
    · have hkind : (f.found c.position).kind ≠ .unterminatedString := by
        change f.kind ≠ _
        rw [hf]
        exact ErrorKind.noConfusion
      rw [hlog, Log.openRegions_error _ hkind, h.regions]

/-! ## The end -/

/-- What was emitted ends with the text behind the brace of a block, degraded, unless there
is only a gap. -/
inductive Remainder (brace : Cursor) (gap : List Char) : List Char → List Fragment → Prop where
  | none {emitted : List Fragment} (whole : ∀ f ∈ emitted, f.degraded = false) :
      Remainder brace gap [] emitted
  | text {f : Fragment} {rest : List Char} {emitted : List Fragment}
      (whole : ∀ f ∈ emitted, f.degraded = false) (degraded : f.degraded = true)
      (context : f.context = .rawHtml) (content : f.content = rest) (nonempty : rest ≠ [])
      (start : f.start = brace.position.advanceOver ('{' :: gap)) :
      Remainder brace gap rest (f :: emitted)

/-- How the pass can end. -/
inductive Outcome (signs : List Sign) (o : Outline) : Prop where
  /-- At the end of the document. -/
  | complete (blocks : ∀ s ∈ signs, s.isOpenBlock = false)
      (whole : ∀ f ∈ o.emitted, f.degraded = false)
  /-- At a block that is never closed, which is the last sign. -/
  | broken {before : List Sign} {context : Context} {brace : Cursor} {gap rest : List Char}
      (signs : signs = before ++ [.block context brace])
      (blocks : ∀ s ∈ before, s.isOpenBlock = false)
      (unclosed : Sign.isOpenBlock (.block context brace))
      (read : brace.rest = '{' :: (gap ++ rest)) (blank : ∀ ch ∈ gap, isBlank ch)
      (first : ∀ ch ∈ rest.head?, isBlank ch = false)
      (last : ∃ e ∈ o.log.errors.getLast?,
        e.kind = .unbalancedBraces ∧ e.position = brace.position)
      (emitted : Remainder brace gap rest o.emitted)

/-- What is known of the state at the end. -/
structure Ended (signs : List Sign) (o : Outline) : Prop where
  regions : o.log.openRegions ≤ 1
  unbalanced : ∀ e ∈ o.log.errors.dropLast, e.kind ≠ .unbalancedBraces
  outcome : Outcome signs o

/-- An error about braces at the end is the only one. -/
theorem Intact.dropLast (h : o.Intact n) (e : ScanError) :
    ∀ x ∈ (o.log.error e).errors.dropLast, x.kind ≠ .unbalancedBraces := by
  rw [Log.errors_error, List.dropLast_concat]
  exact h.balanced

theorem Intact.finish (h : o.Intact n) (hn : n ≤ 1) (hblocks : ∀ s ∈ signs, s.isOpenBlock = false)
    (c : Cursor) : Ended signs (o.finish c) := by
  have hwhole : ∀ f ∈ (o.finish c).emitted, f.degraded = false := by
    have hrun := (h.emitRun c).whole
    unfold Outline.finish
    simp only
    split <;> exact hrun
  have hlog := log_finish o c
  cases houtermost : o.stack.outermostBrace with
  | none =>
    rw [houtermost] at hlog
    refine ⟨?_, fun e he => ?_, .complete hblocks hwhole⟩
    · rw [hlog]
      exact h.regions.trans_le hn
    · rw [hlog] at he
      exact h.balanced e (List.dropLast_subset _ he)
  | some entry =>
    rw [houtermost] at hlog
    refine ⟨?_, ?_, .complete hblocks hwhole⟩
    · rw [hlog]
      exact (Log.openRegions_error _ ErrorKind.noConfusion).trans_le (h.regions.trans_le hn)
    · rw [hlog]
      exact h.dropLast _

/-- What is emitted for a block that is never closed: the text behind the blanks after its
brace, if there is any. -/
theorem remainder_emit (hwhole : ∀ f ∈ o.emitted, f.degraded = false) {rest : List Char}
    (hbrace : c.rest = '{' :: rest)
    (frame : Frame) (hframe : frame.context = .rawHtml) :
    Remainder c (rest.takeWhile isBlank) (rest.dropWhile isBlank)
      (o.emit frame true c.advance.skipBlank c.advance.skipBlank.toEnd).emitted := by
  have hadvance : c.advance = ⟨c.position.advance '{', rest⟩ := by
    unfold Cursor.advance
    rw [hbrace]
  obtain ⟨hread, hposition⟩ := Cursor.consumes_eatWhile isBlank c.advance
  change c.advance.skipBlank.position = _ at hposition
  have hbody : c.advance.skipBlank.rest = rest.dropWhile isBlank := by
    rw [Cursor.skipBlank, Cursor.eatWhile, Cursor.eatWhileFrom_eq, hadvance]
  have hconsumes : c.advance.skipBlank.Consumes (rest.dropWhile isBlank)
      c.advance.skipBlank.toEnd := by
    refine ⟨?_, ?_⟩
    · simp [Cursor.toEnd, hbody]
    · simp [Cursor.toEnd, hbody]
  have hstart : c.advance.skipBlank.position =
      c.position.advanceOver ('{' :: rest.takeWhile isBlank) := by
    rw [hposition, hadvance, Position.advanceOver_cons]
  cases hrest : rest.dropWhile isBlank with
  | nil =>
    rw [hrest] at hconsumes
    rw [emit_nil o frame true hconsumes]
    exact .none hwhole
  | cons ch text =>
    rw [hrest] at hconsumes
    rw [emit_text o frame true hconsumes (List.cons_ne_nil ch text)]
    exact .text hwhole rfl hframe rfl (List.cons_ne_nil ch text) hstart

/-- A block is read to its end, or ends the pass. -/
theorem Intact.embeds {context : Context} {flow : Flow c} (h : o.Intact 0)
    (hblocks : ∀ s ∈ before, s.isOpenBlock = false) (hbrace : c.rest.head? = some '{')
    (hflow : Embeds options o context c flow) :
    flow.Meets (fun o' _ => Sign.isOpenBlock (.block context c) = false ∧ o'.Intact 0)
      (Ended (before ++ [.block context c])) := by
  cases hflow with
  | @unclosed unbalanced unmatched =>
    have hissue : ∃ n ≤ 1, (unbalanced.issue.elim o o.guardIssue).Intact n := by
      cases unbalanced.issue with
      | none => exact ⟨0, Nat.zero_le 1, h⟩
      | some issue => exact ⟨1, Nat.le_refl 1, h.guardIssue issue⟩
    obtain ⟨n, hn, hintact⟩ := hissue
    have hrun := hintact.emitRun c.advance.skipBlank
    generalize (unbalanced.issue.elim o o.guardIssue).emitRun c.advance.skipBlank = o' at hrun ⊢
    obtain ⟨rest, hrest⟩ : ∃ rest, c.rest = '{' :: rest := by
      cases hc : c.rest with
      | nil => simp [hc] at hbrace
      | cons ch rest => exact ⟨rest, by simpa [hc] using hbrace⟩
    have hremainder := remainder_emit (o := o'.fault (.unclosedBlock context unbalanced.depth) c)
      hrun.whole hrest
      { (o.stack.enter context .brace c.position).frame with context := .rawHtml } rfl
    have hlog := log_emit (o'.fault (.unclosedBlock context unbalanced.depth) c)
      { (o.stack.enter context .brace c.position).frame with context := .rawHtml } true
      c.advance.skipBlank c.advance.skipBlank.toEnd
    change _ = o'.log.error ((Fault.unclosedBlock context unbalanced.depth).found c.position) at hlog
    simp only [Flow.Meets]
    generalize (o'.fault (.unclosedBlock context unbalanced.depth) c).emit _ true
      c.advance.skipBlank c.advance.skipBlank.toEnd = final at hremainder hlog ⊢
    refine ⟨?_, ?_, .broken rfl hblocks ?_ ?_ ?_ ?_ ?_ hremainder⟩
    · rw [hlog, Log.openRegions_error _ ErrorKind.noConfusion, hrun.regions]
      exact hn
    · rw [hlog]
      exact hrun.dropLast _
    · simp [Sign.isOpenBlock, unmatched, Except.isOk, Except.toBool]
    · rw [hrest, List.takeWhile_append_dropWhile]
    · exact List.all_eq_true.1 List.all_takeWhile
    · intro ch hch
      have := List.head?_dropWhile_not isBlank rest
      rw [hch] at this
      simpa using this
    · rw [hlog, Log.errors_error, List.getLast?_concat]
      exact ⟨_, rfl, rfl, rfl⟩
  | blank closed =>
    exact ⟨by simp [Sign.isOpenBlock, closed, Except.isOk, Except.toBool], h.of_eq rfl h.whole⟩
  | body closed trimmed nonempty =>
    refine ⟨by simp [Sign.isOpenBlock, closed, Except.isOk, Except.toBool], h.of_eq ?_ ?_⟩
    · simp only [log_emitBody, Outline.emitRun, log_emit]
    · exact emitted_emitBody (emitted_emit h.whole (fun _ _ _ _ => rfl) _ _)
        (fun _ _ _ _ => rfl) _ _

theorem Intact.acts {flow : Flow c} (h : o.Intact 0)
    (hblocks : ∀ s ∈ before, s.isOpenBlock = false) (hflow : Acts options o c signs flow) :
    flow.Meets (fun o' _ => (∀ s ∈ before ++ signs, s.isOpenBlock = false) ∧ o'.Intact 0)
      (Ended (before ++ signs)) := by
  have hconcat : ∀ {s : Sign}, s.isOpenBlock = false →
      ∀ x ∈ before ++ [s], x.isOpenBlock = false := by
    intro s hs x hx
    rcases List.mem_append.1 hx with hx | hx
    · exact hblocks x hx
    · rwa [List.mem_singleton.1 hx]
  cases hflow with
  | pass next begins =>
    rw [List.append_nil]
    exact ⟨hblocks, h.of_eq rfl h.whole⟩
  | openBody after brace opened => exact ⟨hconcat rfl, h.of_eq rfl h.whole⟩
  | openElement after brace noHeader kind =>
    exact ⟨hconcat rfl, (h.changeStack _ _).of_eq rfl (h.changeStack _ _).whole⟩
  | closeBrace after brace => exact ⟨hconcat rfl, h.closeBrace after⟩
  | semicolon after =>
    exact ⟨hconcat rfl, (h.changeStack _ _).of_eq rfl (h.changeStack _ _).whole⟩
  | header next start declared =>
    have hother : ({ o with head := .other } : Outline).Intact 0 := h.of_eq rfl h.whole
    exact ⟨hconcat rfl, hother.changeStack _ _⟩
  | block after keyword brace embeds =>
    have hmeets := h.embeds hblocks brace embeds
    cases flow with
    | onward o' next => exact ⟨hconcat hmeets.1, hmeets.2⟩
    | stop o' => exact hmeets
  | originStop brace start isRaw isBrace embeds =>
    have hmeets := (h.openOrigin c brace.cursor).embeds hblocks isBrace embeds
    exact hmeets
  | origin brace start isRaw isBrace embeds =>
    obtain ⟨hclosed, hintact⟩ := (h.openOrigin c brace.cursor).embeds hblocks isBrace embeds
    exact ⟨hconcat hclosed, hintact.changeStack _ _⟩

/-- The invariant of the walk: an unterminated region uses up the document. -/
def Whole (o : Outline) (c : Cursor) (signs : List Sign) : Prop :=
  (∀ s ∈ signs, s.isOpenBlock = false) ∧ ∃ n ≤ 1, o.Intact n ∧ (n = 0 ∨ c.rest = [])

theorem Whole.steps {flow : Flow c} (h : o.Whole c before)
    (hflow : Steps options o c signs flow) :
    flow.Meets (fun o' d => o'.Whole d (before ++ signs)) (Ended (before ++ signs)) := by
  obtain ⟨hblocks, n, hn, hintact, hcount⟩ := h
  have hzero : c.rest ≠ [] → o.Intact 0 := fun hne => hcount.resolve_right hne ▸ hintact
  have hline : ∀ isBrace, ∀ s ∈ before ++ (o.lineSign? isBrace).toList,
      s.isOpenBlock = false := by
    intro isBrace s hs
    rcases List.mem_append.1 hs with hs | hs
    · exact hblocks s hs
    · obtain ⟨hsign, -⟩ | ⟨hsign, -⟩ := o.beforeCode_cases isBrace c
      · rw [hsign] at hs
        rw [List.mem_singleton.1 hs]
        rfl
      · simp [hsign] at hs
  cases hflow with
  | finish atEnd =>
    rw [List.append_nil]
    exact hintact.finish hn hblocks c
  | gap next =>
    rw [List.append_nil]
    have hintact := hzero next.rest_ne_nil
    exact ⟨hblocks, 0, Nat.zero_le 1, hintact.of_eq rfl hintact.whole, .inl rfl⟩
  | @openComment issue next atEnd comment =>
    rw [List.append_nil]
    exact ⟨hblocks, 1, Nat.le_refl 1, (hzero next.rest_ne_nil).guardIssue issue, .inr atEnd⟩
  | @openString issue next atEnd string =>
    have hbefore := (hzero next.rest_ne_nil).beforeCode false c
    exact ⟨hline false, 1, Nat.le_refl 1, hbefore.guardIssue issue, .inr atEnd⟩
  | @code isBrace signs flow acts =>
    rw [← List.append_assoc]
    have hmeets := ((hzero acts.ahead).beforeCode isBrace c).acts (hline isBrace) acts
    cases flow with
    | onward o' next => exact ⟨hmeets.1, 0, Nat.zero_le 1, hmeets.2, .inl rfl⟩
    | stop o' => exact hmeets

/-- How the pass over a document ends, where nothing but its encoding was logged before. -/
theorem ended_ofText (options : Options) (text : List Char) {log : Log} (herrors : log.errors = [])
    (hregions : log.openRegions = 0) :
    Ended (signsOfText options text log) (ofText options text log) := by
  refine ofText_meets (I := fun o c signs => o.Whole c signs) (F := fun o signs => Ended signs o)
    (fun h hflow => h.steps hflow) fun first _ => ?_
  refine ⟨by simp, 0, Nat.zero_le 1, ⟨?_, hregions, fun f hf => ?_⟩, .inl rfl⟩
  · intro e he
    change e ∈ log.errors at he
    simp [herrors] at he
  · cases hf

end Outline

/-! ## Scans -/

namespace Scan

variable {options : Options} {text : List Char} {scan : Scan}

theorem openRegions_encodingRemarks (text : List Char) (log : Log) :
    (encodingRemarks text log).openRegions = log.openRegions := by
  unfold encodingRemarks
  generalize EncodingIssue.all text = issues
  induction issues generalizing log with
  | nil => rfl
  | cons issue issues ih =>
    rw [List.foldl_cons, ih]
    simp [Log.openRegions, List.countP_append, Remark.found, Remark.kind]

theorem openRegions_foreignRemarks (fs : List Fragment) (log : Log) :
    (foreignRemarks fs log).openRegions = log.openRegions := by
  obtain ⟨herrors, hwarnings⟩ := foreignRemarks_eq fs log
  have hforeign : (fs.filterMap Fragment.remark?).countP (·.kind = .unterminatedBlockComment) =
      0 := by
    rw [List.countP_eq_zero]
    intro w hw
    obtain ⟨f, -, hremark⟩ := List.mem_filterMap.1 hw
    simp [Fragment.remark?_kind hremark]
  rw [Log.openRegions, herrors, hwarnings, List.countP_append, hforeign]
  rfl

/-- A scan degrades nothing that the structural pass did not degrade. -/
theorem whole_of_assemble {fs gs : List Fragment} (h : ∀ f ∈ fs, f.degraded = false)
    (hgs : gs.map Fragment.unnumbered = Fragment.assemble options fs) :
    ∀ g ∈ gs, g.degraded = false := by
  intro g hg
  have hmem : g.unnumbered ∈ Fragment.assemble options fs := hgs ▸ List.mem_map_of_mem hg
  have hwhole : g.unnumbered.degraded = false :=
    Fragment.assemble_forall (p := fun f => f.degraded = false)
      (fun f g hfg hf => hfg.2.symm.trans hf) options h _ hmem
  exact hwhole

theorem classify_rawHtml {f : Fragment} (h : f.context = .rawHtml) : f.classify = f := by
  unfold Fragment.classify
  rw [h]

/-- The last fragment of a scan stops at the end of the document. -/
theorem stop_getLast? {f : Fragment} (hf : f ∈ (ofText options text).fragments.getLast?) :
    f.stop.offset = byteLength text := by
  obtain ⟨e, hend, htiles⟩ := fragments_tiles options text
  obtain ⟨hread, hposition⟩ := htiles.consumes
  rw [hend, List.append_nil] at hread
  rw [htiles.stop_eq f hf, hposition, ← hread, Position.advanceOver_offset]
  exact Nat.zero_add _

/-- An unclosed block with more than blanks behind its brace. -/
def LosesText (signs : List Sign) : Prop :=
  ∃ context brace, .block context brace ∈ signs ∧ Sign.isOpenBlock (.block context brace) ∧
    ∃ ch ∈ brace.rest.tail, isBlank ch = false

/-- The shape that error recovery leaves behind. -/
structure Recovers (text : List Char) (signs : List Sign) (scan : Scan) : Prop where
  /-- At most one region is unterminated. -/
  regions : scan.log.openRegions ≤ 1
  /-- At most one error is about unbalanced braces, and it is the last error. -/
  unbalanced : ∀ e ∈ scan.log.errors.dropLast, e.kind ≠ .unbalancedBraces
  /-- At most one fragment is degraded, and it is the last fragment. -/
  single : ∀ f ∈ scan.fragments.dropLast, f.degraded = false
  /-- A degraded fragment is there for an unclosed block with more than blanks behind its brace. -/
  degraded_iff : (∃ f ∈ scan.fragments, f.degraded) ↔ LosesText signs
  /-- A degraded fragment is what follows the brace of an unclosed block, up to the end of the
  document and but for the blanks behind the brace. The last error is about that brace. -/
  cause : ∀ f ∈ scan.fragments, f.degraded →
    f.context = .rawHtml ∧ f.stop.offset = byteLength text ∧ ∃ context brace gap,
      .block context brace ∈ signs ∧ Sign.isOpenBlock (.block context brace) ∧
      (⟨.start, text⟩ : Cursor).Reaches brace ∧ brace.rest = '{' :: (gap ++ f.content) ∧
      (∀ ch ∈ gap, isBlank ch) ∧ f.start = brace.position.advanceOver ('{' :: gap) ∧
      ∃ e ∈ scan.log.errors.getLast?, e.kind = .unbalancedBraces ∧ e.position = brace.position

/-- The brace of a block stands in the document. -/
theorem reaches_block {context : Context} {brace : Cursor}
    (h : .block context brace ∈ signs options text) : (⟨.start, text⟩ : Cursor).Reaches brace := by
  obtain hnone | ⟨c, hc, hstands⟩ := (Outline.signsOfText_stand options text _).found _ h
  · cases hnone
  · cases hstands
    exact hc

theorem recovers_of_whole {signs : List Sign} (hregions : scan.log.openRegions ≤ 1)
    (hunbalanced : ∀ e ∈ scan.log.errors.dropLast, e.kind ≠ .unbalancedBraces)
    (hwhole : ∀ f ∈ scan.fragments, f.degraded = false) (hlost : ¬ LosesText signs) :
    Recovers text signs scan := by
  have hdegraded : ∀ f ∈ scan.fragments, ¬ f.degraded := by
    intro f hf
    simp [hwhole f hf]
  exact ⟨hregions, hunbalanced, fun f hf => hwhole f (List.dropLast_subset _ hf),
    iff_of_false (fun ⟨f, hf, hd⟩ => hdegraded f hf hd) hlost,
    fun f hf hd => absurd hd (hdegraded f hf)⟩

/-- Where only the last fragment is degraded, it is the one to account for. -/
theorem recovers_of_last {signs : List Sign} {fs : List Fragment} {f : Fragment}
    (hregions : scan.log.openRegions ≤ 1)
    (hunbalanced : ∀ e ∈ scan.log.errors.dropLast, e.kind ≠ .unbalancedBraces)
    (hfragments : scan.fragments = fs ++ [f]) (hwhole : ∀ g ∈ fs, g.degraded = false)
    (hdegraded : f.degraded) (hlost : LosesText signs)
    (hcause : f.context = .rawHtml ∧ f.stop.offset = byteLength text ∧ ∃ context brace gap,
      .block context brace ∈ signs ∧ Sign.isOpenBlock (.block context brace) ∧
      (⟨.start, text⟩ : Cursor).Reaches brace ∧ brace.rest = '{' :: (gap ++ f.content) ∧
      (∀ ch ∈ gap, isBlank ch) ∧ f.start = brace.position.advanceOver ('{' :: gap) ∧
      ∃ e ∈ scan.log.errors.getLast?, e.kind = .unbalancedBraces ∧ e.position = brace.position) :
    Recovers text signs scan := by
  have hmem : f ∈ scan.fragments := by simp [hfragments]
  refine ⟨hregions, hunbalanced, ?_, iff_of_true ⟨f, hmem, hdegraded⟩ hlost, ?_⟩
  · rw [hfragments, List.dropLast_concat]
    exact hwhole
  · intro g hg hd
    rw [hfragments] at hg
    rcases List.mem_append.1 hg with hg | hg
    · rw [hwhole g hg] at hd
      cases hd
    · rw [List.mem_singleton.1 hg]
      exact hcause

/-- A block that ends the pass is the only one that is not closed. -/
theorem not_losesText {before : List Sign} {context : Context} {brace : Cursor}
    (hblocks : ∀ s ∈ before, s.isOpenBlock = false)
    (hblank : ∀ ch ∈ brace.rest.tail, isBlank ch) :
    ¬ LosesText (before ++ [.block context brace]) := by
  rintro ⟨context', brace', hmem, hopen, ch, hch, hnonblank⟩
  rcases List.mem_append.1 hmem with hmem | hmem
  · rw [hblocks _ hmem] at hopen
    cases hopen
  · obtain ⟨rfl, rfl⟩ : context' = context ∧ brace' = brace := by simpa using hmem
    rw [hblank ch hch] at hnonblank
    cases hnonblank

/-- The shape of error recovery in all scans. -/
theorem recovers_scan (h : ofText? options text = .ok scan) :
    Recovers text (signs options text) scan := by
  obtain rfl := eq_ofText h
  have hnoErrors : (encodingRemarks text .empty).errors = [] := errors_encodingRemarks text .empty
  have hnoRegions : (encodingRemarks text .empty).openRegions = 0 :=
    openRegions_encodingRemarks text .empty
  obtain ⟨hregions, hunbalanced, houtcome⟩ :=
    Outline.ended_ofText options text hnoErrors hnoRegions
  have hlog : (ofText options text).log.openRegions =
      (Outline.ofText options text (encodingRemarks text .empty)).log.openRegions :=
    openRegions_foreignRemarks _ _
  have herrors : (ofText options text).log.errors =
      (Outline.ofText options text (encodingRemarks text .empty)).log.errors :=
    (foreignRemarks_eq _ _).1
  have hfragments := fragments_unnumbered options text
  change Outline.Outcome (signs options text) _ at houtcome
  generalize Outline.ofText options text (encodingRemarks text .empty) = o at *
  rw [← hlog] at hregions
  rw [← herrors] at hunbalanced
  -- nothing is degraded where the structural pass degraded nothing
  have hnone : (∀ f ∈ o.emitted, f.degraded = false) →
      ∀ f ∈ (ofText options text).fragments, f.degraded = false := fun hemitted =>
    whole_of_assemble (fun f hf => hemitted f (List.mem_reverse.1 hf)) hfragments
  cases houtcome with
  | complete blocks whole =>
    refine recovers_of_whole hregions hunbalanced (hnone whole) ?_
    rintro ⟨context, brace, hmem, hopen, -⟩
    rw [blocks _ hmem] at hopen
    cases hopen
  | @broken before context brace gap rest hsigns blocks unclosed read blank first last emitted =>
    generalize hes : o.emitted = es at emitted
    cases emitted with
    | none whole =>
      refine recovers_of_whole hregions hunbalanced (hnone (hes ▸ whole)) ?_
      rw [hsigns]
      refine not_losesText blocks ?_
      rwa [read, List.tail_cons, List.append_nil]
    | @text d rest emitted whole degraded hcontext content nonempty start =>
      have hmem : .block context brace ∈ signs options text := by simp [hsigns]
      have hfs : o.fragments = emitted.reverse ++ [d] := by
        rw [Outline.fragments, hes, List.reverse_cons]
      rw [hfs, Fragment.assemble_concat options _ degraded, classify_rawHtml hcontext] at hfragments
      obtain ⟨fs, ds, hsplit, hbefore, hlast⟩ := List.map_eq_append_iff.1 hfragments
      obtain ⟨f, rfl, hf⟩ := List.map_eq_singleton_iff.1 hlast
      have hwhole := whole_of_assemble (fun f hf => whole f (List.mem_reverse.1 hf)) hbefore
      have hstop : f.stop.offset = byteLength text := stop_getLast? (by rw [hsplit]; simp)
      have hcontent : f.content = rest := (congrArg Fragment.content hf).trans content
      have hstart : f.start = brace.position.advanceOver ('{' :: gap) :=
        (congrArg Fragment.start hf).trans start
      have hlost : LosesText (signs options text) := by
        obtain ⟨ch, more, hrest⟩ := List.exists_cons_of_ne_nil nonempty
        refine ⟨context, brace, hmem, unclosed, ch, ?_, first ch (by rw [hrest]; rfl)⟩
        simp [read, hrest]
      rw [← hcontent] at read
      rw [← herrors] at last
      exact recovers_of_last hregions hunbalanced hsplit hwhole
        ((congrArg Fragment.degraded hf).trans degraded) hlost
        ⟨(congrArg (fun f => f.context) hf).trans hcontext, hstop, context, brace, gap, hmem,
          unclosed, reaches_block hmem, read, blank, hstart, last⟩

/-- A document whose last block is never closed, in which a string runs to the end. -/
theorem recovers_scan_string : ∃ scan,
    ofText? .standard "a \x7b b \x7d style \x7b\n 'c".toList = .ok scan ∧
    (∃ f ∈ scan.fragments, f.degraded) ∧ scan.log.openRegions = 1 ∧
    Recovers "a \x7b b \x7d style \x7b\n 'c".toList
      (signs .standard "a \x7b b \x7d style \x7b\n 'c".toList) scan := by
  let text := "a \x7b b \x7d style \x7b\n 'c".toList
  have hscan : ofText? .standard text = .ok (ofText .standard text) :=
    ofText?_eq_ok .standard (by decide) (by decide)
  have hdegraded : ∃ f ∈ (ofText .standard text).fragments, f.degraded := by decide +kernel
  have hregions : (ofText .standard text).log.openRegions = 1 := by decide +kernel
  exact ⟨_, hscan, hdegraded, hregions, recovers_scan hscan⟩

end Scan

end Polyglot
