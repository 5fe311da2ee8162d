-- SUMMARY: Every finding of a scan stands where its cause stands.
import Polyglot.Proofs.Finding

/-!
# Where findings stand

Positions come from the cursor of the walk, from copies of it that match braces, from
cursors that start again with a fragment, from entries of the stack and from the
search for encoding findings. Each of them is the position of some cursor on the
document, so it agrees with a walk over the text before it (`PointsAt`), and the text
ahead of that cursor begins with what the finding is about.
-/

namespace Polyglot

/-! ## Pointing at a text -/

/-- The position is that of an occurrence of `cause`: it is within the text, it divides
no character, and its line and column count the text before it. -/
def PointsAt (text : List Char) (pos : Position) (cause : List Char) : Prop :=
  ∃ before behind, text = before ++ (cause ++ behind) ∧ pos.offset = byteLength before ∧
    pos.offset ≤ byteLength text ∧ pos = Position.start.advanceOver before

variable {text : List Char} {c d : Cursor}

/-- A cursor on the document points at what lies ahead of it. -/
theorem Cursor.Reaches.pointsAt (h : (⟨.start, text⟩ : Cursor).Reaches d) {cause behind : List Char}
    (hahead : d.rest = cause ++ behind) : PointsAt text d.position cause := by
  obtain ⟨before, hrest, hposition⟩ := h
  have htext : text = before ++ (cause ++ behind) := hahead ▸ hrest
  have hoffset : d.position.offset = byteLength before := by
    rw [hposition, Position.advanceOver_offset]
    exact Nat.zero_add _
  refine ⟨before, behind, htext, hoffset, ?_, hposition⟩
  rw [hoffset, htext, byteLength_append]
  exact Nat.le_add_right _ _

theorem Cursor.Reaches.pointsAt_char (h : (⟨.start, text⟩ : Cursor).Reaches d) {ch : Char}
    (hahead : d.rest.head? = some ch) : PointsAt text d.position [ch] := by
  obtain ⟨behind, hrest⟩ := List.head?_eq_some_iff.1 hahead
  exact h.pointsAt hrest

/-! ## Causes -/

/-- The error stands at its cause: a string at the quote that opened it, and a brace
at itself. -/
def ScanError.AtCause (text : List Char) (e : ScanError) : Prop :=
  match e.kind with
  | .unterminatedString => ∃ quote ∈ GuardSet.script.quotes,
      e.message = (Fault.unterminatedString (firstByte quote)).message ∧
        PointsAt text e.position [quote]
  | .unbalancedBraces => PointsAt text e.position ['{']
  | .contextMismatch => PointsAt text e.position ['}']
  | .invalidInput => False

/-- The warning stands at its cause. Foreign syntax is quoted in the message. -/
def ScanWarning.AtCause (text : List Char) (w : ScanWarning) : Prop :=
  match w.kind with
  | .encoding => PointsAt text w.position [EncodingIssue.byteOrderMark] ∨
      PointsAt text w.position ['\x00']
  | .unterminatedBlockComment => PointsAt text w.position ['/', '*']
  | .foreignSyntax => ∃ marker context,
      w.message = (Remark.foreignSyntax marker context).message ∧
        PointsAt text w.position marker.toList

/-- The warnings about the encoding of a document: one for a byte order mark at its
start, and one for each null character. -/
def encodingWarnings (text : List Char) : List ScanWarning :=
  (if text.head? = some EncodingIssue.byteOrderMark then
    [(Remark.encoding .byteOrderMark).found .start] else []) ++
  ((List.range text.length).filter fun i => text[i]? = some '\x00').map fun i =>
    (Remark.encoding .nullCharacter).found (Position.start.advanceOver (text.take i))

/-- Every finding stands at its cause, and those about the encoding come first. -/
structure Log.IsPlaced (text : List Char) (log : Log) : Prop where
  errors : ∀ e ∈ log.errors, e.AtCause text
  warnings : ∀ w ∈ log.warnings, w.AtCause text
  encoding : ∃ more, log.warnings = encodingWarnings text ++ more ∧
    ∀ w ∈ more, w.kind ≠ .encoding

namespace Log

variable {log : Log}

theorem IsPlaced.error (h : log.IsPlaced text) {e : ScanError} (he : e.AtCause text) :
    (log.error e).IsPlaced text := by
  refine ⟨?_, h.warnings, h.encoding⟩
  intro x hx
  rw [errors_error, List.mem_append, List.mem_singleton] at hx
  rcases hx with hx | rfl
  · exact h.errors x hx
  · exact he

theorem IsPlaced.append {log' : Log} (h : log.IsPlaced text) {ws : List ScanWarning}
    (herrors : log'.errors = log.errors) (hwarnings : log'.warnings = log.warnings ++ ws)
    (hws : ∀ w ∈ ws, w.kind ≠ .encoding ∧ w.AtCause text) : log'.IsPlaced text := by
  obtain ⟨more, hmore, hkind⟩ := h.encoding
  refine ⟨herrors ▸ h.errors, ?_, more ++ ws, ?_, ?_⟩
  · intro w hw
    rw [hwarnings] at hw
    rcases List.mem_append.1 hw with hw | hw
    · exact h.warnings w hw
    · exact (hws w hw).2
  · rw [hwarnings, hmore, List.append_assoc]
  · intro w hw
    rcases List.mem_append.1 hw with hw | hw
    · exact hkind w hw
    · exact (hws w hw).1

end Log

/-! ## Open regions -/

namespace Cursor

/-- The region that keeps a brace from being closed begins at some cursor ahead. -/
theorem closeFrom_issue {set : GuardSet} {depth n : Nat} {c : Cursor} {issue : GuardIssue}
    (h : closeFrom set depth c = .error (n, some issue)) :
    ∃ d, ∃ next : d.Later, c.Reaches d ∧ d.front set = .openRegion issue next := by
  fun_induction closeFrom set depth c with
  | case1 => cases h
  | case2 depth c issue' next hfront =>
    cases h
    exact ⟨c, next, .refl c, hfront⟩
  | case3 depth c kind after hfront ih =>
    obtain ⟨d, next, hd, hnext⟩ := ih h
    exact ⟨d, next, after.reaches.trans hd, hnext⟩
  | case4 depth c after hfront ih =>
    obtain ⟨d, next, hd, hnext⟩ := ih h
    exact ⟨d, next, after.reaches.trans hd, hnext⟩
  | case5 => cases h
  | case6 depth c after hfront hbrace hdepth ih =>
    obtain ⟨d, next, hd, hnext⟩ := ih h
    exact ⟨d, next, after.reaches.trans hd, hnext⟩
  | case7 depth c ch after hfront hopen hclose ih =>
    obtain ⟨d, next, hd, hnext⟩ := ih h
    exact ⟨d, next, after.reaches.trans hd, hnext⟩

theorem matchingClose_issue {set : GuardSet} {c : Cursor} {unbalanced : Unbalanced}
    (h : c.matchingClose set = .error unbalanced) {issue : GuardIssue}
    (hissue : unbalanced.issue = some issue) :
    ∃ d, ∃ next : d.Later, c.Reaches d ∧ d.front set = .openRegion issue next := by
  unfold matchingClose at h
  split at h
  · cases h
    cases hissue
  · next ch rest hc =>
    simp only at h
    split at h
    · cases h
    · next depth issue' hclose =>
      cases h
      obtain rfl : issue' = some issue := hissue
      obtain ⟨d, next, hd, hnext⟩ := closeFrom_issue hclose
      exact ⟨d, next, (c.next ch rest hc).reaches.trans hd, hnext⟩

end Cursor

/-- An open region is logged where it begins. -/
theorem Log.IsPlaced.guardIssue {log : Log} (h : log.IsPlaced text) {set : GuardSet}
    (hquotes : set.quotes ⊆ GuardSet.script.quotes) (hd : (⟨.start, text⟩ : Cursor).Reaches d)
    {issue : GuardIssue} {next : d.Later} (hfront : d.front set = .openRegion issue next) :
    (log.guardIssue issue).IsPlaced text := by
  obtain ⟨quote, hquote, behind, hahead, rfl⟩ | ⟨⟨behind, hahead⟩, rfl⟩ :=
    Cursor.front_openRegion hfront
  · exact h.error ⟨quote, hquotes hquote, rfl, hd.pointsAt hahead⟩
  · refine h.append rfl (Log.warnings_warning _ _) fun w hw => ?_
    rw [List.mem_singleton.1 hw]
    exact ⟨fun hkind => WarningKind.noConfusion hkind, hd.pointsAt hahead⟩

/-! ## Encoding -/

namespace EncodingIssue

/-- The null characters of a text, by their places in it. -/
theorem nullsFrom_eq (pos : Position) (text : List Char) (found : List EncodingIssue) :
    nullsFrom pos text found = found.reverse ++
      ((List.range text.length).filter fun i => text[i]? = some '\x00').map fun i =>
        ⟨.nullCharacter, pos.advanceOver (text.take i), 1⟩ := by
  induction text generalizing pos found with
  | nil => simp [nullsFrom]
  | cons ch text ih =>
    have hrest : ((List.range text.length).map Nat.succ).filter
        (fun i => (ch :: text)[i]? = some '\x00') =
          ((List.range text.length).filter fun i => text[i]? = some '\x00').map Nat.succ := by
      rw [List.filter_map]
      rfl
    rw [nullsFrom, ih, List.length_cons, List.range_succ_eq_map, List.filter_cons, hrest]
    by_cases hnull : ch = '\x00'
    · simp [hnull, Function.comp_def]
    · simp [hnull, Function.comp_def]

end EncodingIssue

theorem Scan.encodingRemarks_eq (text : List Char) (log : Log) :
    (encodingRemarks text log).errors = log.errors ∧
      (encodingRemarks text log).warnings = log.warnings ++
        (EncodingIssue.all text).map fun issue =>
          (Remark.encoding issue.kind).found issue.position := by
  unfold encodingRemarks
  generalize EncodingIssue.all text = issues
  induction issues generalizing log with
  | nil => simp
  | cons issue issues ih =>
    obtain ⟨herrors, hwarnings⟩ :=
      ih (log.warning ((Remark.encoding issue.kind).found issue.position))
    refine ⟨herrors, ?_⟩
    rw [List.foldl_cons, hwarnings, Log.warnings_warning, List.append_assoc]
    rfl

theorem encodingWarnings_atCause {w : ScanWarning} (hw : w ∈ encodingWarnings text) :
    w.AtCause text := by
  rcases List.mem_append.1 hw with hmark | hnull
  · split at hmark
    · next hhead =>
      rw [List.mem_singleton.1 hmark]
      exact .inl ((Cursor.Reaches.refl ⟨.start, text⟩).pointsAt_char hhead)
    · cases hmark
  · obtain ⟨i, hi, rfl⟩ := List.mem_map.1 hnull
    have hnul : (text.drop i).head? = some '\x00' := by
      rw [List.head?_drop]
      simpa using (List.mem_filter.1 hi).2
    have hreach : (⟨.start, text⟩ : Cursor).Reaches
        ⟨Position.start.advanceOver (text.take i), text.drop i⟩ :=
      ⟨text.take i, (List.take_append_drop i text).symm, rfl⟩
    exact .inr (hreach.pointsAt_char hnul)

/-- A document that is not too large has the encoding findings of its characters. -/
theorem Scan.encodingRemarks_isPlaced (hsize : EncodingIssue.isOversized text = false) :
    (encodingRemarks text .empty).IsPlaced text := by
  have hall : (EncodingIssue.all text).map (fun issue =>
      (Remark.encoding issue.kind).found issue.position) = encodingWarnings text := by
    unfold EncodingIssue.isOversized at hsize
    unfold EncodingIssue.all at hsize ⊢
    split at hsize
    · simp at hsize
    · next hlimit =>
      rw [if_neg hlimit, List.map_append, EncodingIssue.nullCharacters, EncodingIssue.nullsFrom_eq]
      unfold encodingWarnings
      congr 1
      · split <;> rfl
      · simp [Function.comp_def]
  obtain ⟨herrors, hwarnings⟩ := encodingRemarks_eq text .empty
  rw [hall] at hwarnings
  refine ⟨?_, ?_, [], ?_, ?_⟩
  · intro e he
    rw [herrors] at he
    cases he
  · intro w hw
    rw [hwarnings] at hw
    exact encodingWarnings_atCause hw
  · rw [hwarnings, List.append_nil]
    rfl
  · intro w hw
    cases hw

/-! ## The structural pass -/

/-- Every entry that a brace has opened points at that brace. -/
def Stack.IsBraced (text : List Char) (s : Stack) : Prop :=
  ∀ e ∈ s.entries, e.kind = .brace → PointsAt text e.openedAt ['{']

namespace Stack

variable {s t : Stack}

theorem IsBraced.of_suffix (h : s.IsBraced text) (hsuffix : t.entries <:+ s.entries) :
    t.IsBraced text := fun e he => h e (hsuffix.subset he)

theorem IsBraced.enter (h : s.IsBraced text) (context : Context) {kind : EntryKind}
    {pos : Position} (hpos : kind = .brace → PointsAt text pos ['{']) :
    (s.enter context kind pos).IsBraced text := by
  intro e he hkind
  rcases List.mem_cons.1 he with rfl | he
  · exact hpos hkind
  · exact h e he hkind

theorem IsBraced.openHeaderBody (h : s.IsBraced text) {pos : Position}
    (hpos : PointsAt text pos ['{']) (hopen : s.openHeaderBody pos = some t) :
    t.IsBraced text := by
  obtain ⟨e, below, lastScope, rfl, rfl⟩ := openHeaderBody_some hopen
  intro x hx hkind
  rcases List.mem_cons.1 hx with rfl | hx
  · exact hpos
  · exact h x (List.mem_cons_of_mem e hx) hkind

end Stack

namespace Outline

variable {options : Options} {o : Outline}

/-- What was logged, and what the end of the document would log, stands at its cause. -/
structure IsPlaced (text : List Char) (o : Outline) : Prop where
  log : o.log.IsPlaced text
  stack : o.stack.IsBraced text

/-- How a step goes on with all findings in place. -/
def Flow.IsPlaced (text : List Char) (flow : Flow c) : Prop :=
  flow.Meets (fun o _ => Outline.IsPlaced text o) fun o => o.log.IsPlaced text

theorem IsPlaced.of_eq {o' : Outline} (h : o.IsPlaced text) (hlog : o'.log = o.log)
    (hstack : o'.stack = o.stack) : o'.IsPlaced text := by
  obtain ⟨log, stack⟩ := h
  rw [← hlog] at log
  rw [← hstack] at stack
  exact ⟨log, stack⟩

theorem IsPlaced.changeStack (h : o.IsPlaced text) (c : Cursor) {stack : Stack}
    (hstack : stack.IsBraced text) : (o.changeStack c stack).IsPlaced text := by
  obtain ⟨hsame, -, -, hlog⟩ := changeStack_frame o c stack
  exact ⟨hlog.symm ▸ h.log, hsame.symm ▸ hstack⟩

theorem IsPlaced.close (h : o.IsPlaced text) (c : Cursor) {stack : Stack}
    (hsuffix : stack.entries <:+ o.stack.entries) : (o.changeStack c stack).IsPlaced text :=
  h.changeStack c (h.stack.of_suffix hsuffix)

theorem IsPlaced.beforeCode (h : o.IsPlaced text) (isBrace : Bool) (c : Cursor) :
    (o.beforeCode isBrace c).IsPlaced text := by
  obtain ⟨-, hbefore⟩ | ⟨-, hbefore⟩ := o.beforeCode_cases isBrace c
  · rw [hbefore]
    exact (h.close c o.stack.endHeader_suffix.1).of_eq rfl rfl
  · rw [hbefore]
    exact h.of_eq rfl rfl

theorem IsPlaced.closeBrace (h : o.IsPlaced text) (hc : (⟨.start, text⟩ : Cursor).Reaches c)
    (hbrace : c.rest.head? = some '}') (after : c.Later) :
    (o.closeBrace c after).IsPlaced text := by
  have hstack : (o.closeBrace c after).stack = o.stack.closeBrace.2 := by
    obtain ⟨hsame, -⟩ := changeStack_frame o after.cursor o.stack.closeBrace.2
    unfold Outline.closeBrace
    simp only
    split <;> exact hsame
  refine ⟨?_, ?_⟩
  · obtain hlog | ⟨f, hkind, hlog⟩ := log_closeBrace o c after
    · rw [hlog]
      exact h.log
    · rw [hlog]
      refine h.log.error ?_
      unfold ScanError.AtCause Fault.found
      rw [hkind]
      exact hc.pointsAt_char hbrace
  · rw [hstack]
    exact h.stack.of_suffix o.stack.closeBrace_suffix.1

/-- The end of the document reports a brace that is still open. -/
theorem IsPlaced.finish (h : o.IsPlaced text) (c : Cursor) : (o.finish c).log.IsPlaced text := by
  rw [log_finish]
  cases houter : o.stack.outermostBrace with
  | none => exact h.log
  | some e =>
    have hbrace : e.kind = .brace := by simpa using List.find?_some houter
    exact h.log.error (h.stack e (List.mem_reverse.1 (List.mem_of_find?_eq_some houter)) hbrace)

theorem IsPlaced.embeds {context : Context} {flow : Flow c} (h : o.IsPlaced text)
    (hc : (⟨.start, text⟩ : Cursor).Reaches c) (hbrace : c.rest.head? = some '{')
    (hflow : Embeds options o context c flow) : flow.IsPlaced text := by
  cases hflow with
  | @unclosed unbalanced unmatched =>
    have hissue : (unbalanced.issue.elim o o.guardIssue).log.IsPlaced text := by
      cases hopen : unbalanced.issue with
      | none => exact h.log
      | some issue =>
        obtain ⟨d, next, hd, hfront⟩ := Cursor.matchingClose_issue unmatched hopen
        exact h.log.guardIssue context.quotes_subset (hc.trans hd) hfront
    simp only [Flow.IsPlaced, Flow.Meets, log_emit]
    refine Log.IsPlaced.error ?_ (hc.pointsAt_char hbrace)
    rw [emitRun, log_emit]
    exact hissue
  | blank closed => exact ⟨h.log, h.stack⟩
  | body closed trimmed nonempty =>
    refine ⟨?_, h.stack⟩
    simp only [log_emitBody, emitRun, log_emit]
    exact h.log

theorem IsPlaced.openOrigin (h : o.IsPlaced text) (c : Cursor) {brace : Cursor}
    (hbrace : PointsAt text brace.position ['{']) : (o.openOrigin c brace).IsPlaced text := by
  have hother : ({ o with head := .other } : Outline).IsPlaced text := h.of_eq rfl rfl
  have hheader : (o.stack.enter .originBody .header c.position).IsBraced text :=
    h.stack.enter .originBody fun hkind => EntryKind.noConfusion hkind
  have hentered := hother.changeStack c hheader
  unfold Outline.openOrigin
  simp only
  generalize ({ o with head := .other } : Outline).changeStack c _ = o' at hentered ⊢
  refine ⟨hentered.log, ?_⟩
  cases hopen : o'.stack.openHeaderBody brace.position with
  | none => exact hentered.stack
  | some stack => exact hentered.stack.openHeaderBody hbrace hopen

theorem IsPlaced.acts {signs : List Sign} {flow : Flow c} (h : o.IsPlaced text)
    (hc : (⟨.start, text⟩ : Cursor).Reaches c) (hflow : Acts options o c signs flow) :
    flow.IsPlaced text := by
  cases hflow with
  | pass next begins => exact h.of_eq rfl rfl
  | openBody after brace opened =>
    exact ⟨h.log, h.stack.openHeaderBody (hc.pointsAt_char brace) opened⟩
  | @openElement context after brace noHeader kind =>
    exact (h.changeStack after.cursor
      (h.stack.enter context fun _ => hc.pointsAt_char brace)).of_eq rfl rfl
  | closeBrace after brace => exact h.closeBrace hc brace after
  | semicolon after => exact (h.close after.cursor o.stack.endHeader_suffix.1).of_eq rfl rfl
  | @header context next start declared =>
    have hother : ({ o with head := .other } : Outline).IsPlaced text := h.of_eq rfl rfl
    exact hother.changeStack c (h.stack.enter context fun hkind => EntryKind.noConfusion hkind)
  | block after keyword brace embeds => exact h.embeds hc brace embeds
  | originStop brace start isRaw isBrace embeds =>
    have hd := hc.trans brace.reaches
    have hstop := (h.openOrigin c (hd.pointsAt_char isBrace)).embeds hd isBrace embeds
    exact hstop
  | @origin raw o' brace next start isRaw isBrace embeds =>
    have hd := hc.trans brace.reaches
    have hread : o'.IsPlaced text :=
      (h.openOrigin c (hd.pointsAt_char isBrace)).embeds hd isBrace embeds
    exact hread.close _ (Stack.exit_suffix _ _).1

/-- A step keeps all findings in place. -/
theorem IsPlaced.steps {signs : List Sign} {flow : Flow c} (h : o.IsPlaced text)
    (hc : (⟨.start, text⟩ : Cursor).Reaches c) (hflow : Steps options o c signs flow) :
    flow.IsPlaced text := by
  cases hflow with
  | finish atEnd => exact h.finish c
  | gap next => exact h.of_eq rfl rfl
  | openComment atEnd comment ahead =>
    exact ⟨h.log.guardIssue (quotes_templateSet options) hc ahead, h.stack⟩
  | openString atEnd string ahead =>
    have hbefore := h.beforeCode false c
    exact ⟨hbefore.log.guardIssue (quotes_templateSet options) hc ahead, hbefore.stack⟩
  | code acts => exact (h.beforeCode _ c).acts hc acts

/-- The structural pass logs every finding at its cause. -/
theorem isPlaced_ofText (options : Options) {log : Log} (hlog : log.IsPlaced text) :
    (ofText options text log).log.IsPlaced text := by
  refine ofText_meets (I := fun o c _ => (⟨.start, text⟩ : Cursor).Reaches c ∧ o.IsPlaced text)
    (F := fun o _ => o.log.IsPlaced text) ?_ fun first hfirst => ⟨hfirst, hlog, ?_⟩
  · rintro o c before signs flow ⟨hc, h⟩ hflow
    have hnext := h.steps hc hflow
    cases flow with
    | onward o' next => exact ⟨hc.trans next.reaches, hnext⟩
    | stop o' => exact hnext
  · intro e he
    cases he

end Outline

/-! ## Foreign syntax -/

/-- The foreign syntax of a part of the document points at one of the markers. -/
theorem Fragment.remark?_pointsAt {f : Fragment} {a b : Cursor} {w : ScanWarning}
    (hcovers : f.Covers a b) (ha : (⟨.start, text⟩ : Cursor).Reaches a) (h : f.remark? = some w) :
    ∃ marker ∈ foreignMarkers f.context,
      w = (Remark.foreignSyntax marker f.context).found w.position ∧
        PointsAt text w.position marker.toList := by
  obtain ⟨⟨pos, marker⟩, hfound, rfl⟩ := Option.map_eq_some_iff.1 h
  unfold foreignSyntax at hfound
  split at hfound
  · cases hfound
  · obtain ⟨d, ⟨u, hu⟩, -, rfl, hstands, hmarker⟩ := foreignFrom_within hfound
    refine ⟨marker, hmarker, rfl, ?_⟩
    obtain ⟨r, hr⟩ : ∃ r, d.rest = marker.toList ++ r := by
      simp only [standsAlone, Cursor.startsWith, Bool.and_eq_true, List.isPrefixOf_iff_prefix]
        at hstands
      obtain ⟨r, hr⟩ := hstands.1
      exact ⟨r, hr.symm⟩
    -- the same place, with all of the document ahead
    have hcontent : f.content = u ++ d.rest := hu.1
    have hposition : d.position = f.start.advanceOver u := hu.2
    have hplace : a.Reaches ⟨d.position, d.rest ++ b.rest⟩ :=
      ⟨u, by rw [hcovers.read.1, hcontent, List.append_assoc], by rw [hposition, hcovers.start]⟩
    exact (ha.trans hplace).pointsAt (by rw [hr, List.append_assoc])

namespace Scan

variable {options : Options} {scan : Scan}

/-- The foreign syntax noted in the parts of the blocks points at one of the markers. -/
theorem remarks_pointsAt {w : ScanWarning}
    (hw : w ∈ (blocks options text).flatMap fun u =>
      (work options.unmerged u).filterMap Fragment.remark?) :
    ∃ context, ∃ marker ∈ foreignMarkers context,
      w = (Remark.foreignSyntax marker context).found w.position ∧
        PointsAt text w.position marker.toList := by
  rw [← List.filterMap_flatMap, ← blocks_unmerged, ← fragments_eq] at hw
  obtain ⟨g, hg, hremark⟩ := List.mem_filterMap.1 hw
  obtain ⟨f, hf, rfl⟩ := List.mem_map.1 hg
  obtain ⟨e, -, htiles⟩ := fragments_tiles options.unmerged text
  obtain ⟨a, b, hcovers, -, -, ha, -⟩ := htiles.exists_covers hf
  exact ⟨f.context, Fragment.remark?_pointsAt hcovers ha hremark⟩

/-- The structural pass of a document that is not too large logs every finding at its cause. -/
theorem isPlaced_outlineLog (options : Options)
    (hsize : EncodingIssue.isOversized text = false) : (outlineLog options text).IsPlaced text :=
  Outline.isPlaced_ofText options.unsplit (encodingRemarks_isPlaced hsize)

/-- What scans is not too large. -/
theorem isOversized_of_ok (h : ofText? options text = .ok scan) :
    EncodingIssue.isOversized text = false := by
  unfold ofText? at h
  split at h
  · cases h
  · split at h
    · cases h
    · next hsize => simpa using hsize

/-- Every finding of a scan stands at its cause, and those about the encoding come first. -/
theorem isPlaced_log (h : ofText? options text = .ok scan) : scan.log.IsPlaced text := by
  have hpass := isPlaced_outlineLog options (isOversized_of_ok h)
  obtain rfl := eq_ofText h
  obtain ⟨herrors, hwarnings⟩ := log_eq options text
  refine hpass.append herrors hwarnings fun w hw => ?_
  obtain ⟨context, marker, -, hfound, hpoints⟩ := remarks_pointsAt hw
  rw [hfound]
  exact ⟨fun hkind => WarningKind.noConfusion hkind, marker, context, rfl, hpoints⟩

/-- A document with findings of five kinds. -/
theorem isPlaced_log_kinds : ∃ text scan, ofText? .standard text = .ok scan ∧
    scan.log.errors.map ScanError.kind =
      [.contextMismatch, .unterminatedString, .unbalancedBraces] ∧
    scan.log.warnings.map ScanWarning.kind = [.encoding, .encoding, .foreignSyntax] ∧
    scan.log.IsPlaced text := by
  let text := "\uFEFF\x00\x7d style \x7b function \x7d script \x7b \"".toList
  have hscan : ofText? .standard text = .ok (ofText .standard text) :=
    ofText?_eq_ok .standard (by decide) (by decide)
  have herrors : (ofText .standard text).log.errors.map ScanError.kind =
      [.contextMismatch, .unterminatedString, .unbalancedBraces] := by decide +kernel
  have hwarnings : (ofText .standard text).log.warnings.map ScanWarning.kind =
      [.encoding, .encoding, .foreignSyntax] := by decide +kernel
  exact ⟨text, _, hscan, herrors, hwarnings, isPlaced_log hscan⟩

end Scan

end Polyglot
