-- SUMMARY: The brace errors of a scan are those of matching the braces of its template text.
import Polyglot.Proofs.Finding
import Polyglot.Proofs.Sign
import Polyglot.Proofs.Step

/-!
# Matching braces

Braces and declaration headers are held on one stack, but a header never moves the
brace below it: at any time the braces on the stack are the unclosed ones among the
signs met so far (`Stack.Reads`), and a header waits on top exactly if it was the last
sign. So a closing brace is at fault exactly if it matches nothing, or if it matches
a brace while a header waits.
-/

namespace Polyglot

/-! ## Brace errors -/

namespace ScanError

/-- The error is about a closing brace that has nothing to close. -/
def isUnmatched (e : ScanError) : Bool :=
  e.kind = .contextMismatch && e.message = "unmatched `\x7d`"

/-- The error is about another mismatch. -/
def isMismatch (e : ScanError) : Bool := e.kind = .contextMismatch && !e.isUnmatched

variable {e : ScanError}

theorem isUnmatched_of_ne (h : e.kind ≠ .contextMismatch) : e.isUnmatched = false := by
  simp [isUnmatched, h]

theorem isMismatch_of_ne (h : e.kind ≠ .contextMismatch) : e.isMismatch = false := by
  simp [isMismatch, h]

/-- The wording of a header without a body is another one. -/
theorem isUnmatched_bodilessHeader (closed header : Context) (openedAt pos : Position) :
    ((Fault.bodilessHeader closed header openedAt).found pos).isUnmatched = false := by
  have hhead : (Fault.bodilessHeader closed header openedAt).message.toList.head? = some '`' := by
    unfold Fault.message
    simp only [String.toList_append, List.append_assoc]
    rfl
  have hmessage : (Fault.bodilessHeader closed header openedAt).message ≠ "unmatched `\x7d`" := by
    generalize (Fault.bodilessHeader closed header openedAt).message = message at hhead ⊢
    rintro rfl
    exact absurd hhead (by decide)
  simp [isUnmatched, Fault.found, hmessage]

end ScanError

/-- The places of the errors that braces cause. -/
structure BraceErrors (errors : List ScanError) (unopened bodiless unclosed : List Position) :
    Prop where
  unopened : (errors.filter (·.isUnmatched)).map ScanError.position = unopened
  bodiless : (errors.filter (·.isMismatch)).map ScanError.position = bodiless
  unclosed : (errors.filter (·.kind = .unbalancedBraces)).map ScanError.position = unclosed

namespace BraceErrors

variable {errors : List ScanError} {unopened bodiless unclosed : List Position}

theorem concat (h : BraceErrors errors unopened bodiless unclosed) (e : ScanError) :
    BraceErrors (errors ++ [e]) (unopened ++ if e.isUnmatched then [e.position] else [])
      (bodiless ++ if e.isMismatch then [e.position] else [])
      (unclosed ++ if e.kind = .unbalancedBraces then [e.position] else []) := by
  obtain ⟨rfl, rfl, rfl⟩ := h
  refine ⟨?_, ?_, ?_⟩
  · rw [List.filter_append, List.map_append]
    cases h : e.isUnmatched <;> simp [h]
  · rw [List.filter_append, List.map_append]
    cases h : e.isMismatch <;> simp [h]
  · rw [List.filter_append, List.map_append]
    by_cases h : e.kind = .unbalancedBraces <;> simp [h]

theorem concat_unmatched (h : BraceErrors errors unopened bodiless unclosed) (pos : Position) :
    BraceErrors (errors ++ [Fault.unmatchedBrace.found pos]) (unopened ++ [pos]) bodiless
      unclosed := by
  have hunmatched : (Fault.unmatchedBrace.found pos).isUnmatched = true := rfl
  have hmismatch : (Fault.unmatchedBrace.found pos).isMismatch = false := rfl
  have hconcat := h.concat (Fault.unmatchedBrace.found pos)
  rw [hunmatched, hmismatch, if_neg (show (Fault.unmatchedBrace.found pos).kind ≠
    .unbalancedBraces from ErrorKind.noConfusion)] at hconcat
  simpa [Fault.found] using hconcat

theorem concat_bodiless (h : BraceErrors errors unopened bodiless unclosed)
    (closed header : Context) (openedAt pos : Position) :
    BraceErrors (errors ++ [(Fault.bodilessHeader closed header openedAt).found pos]) unopened
      (bodiless ++ [pos]) unclosed := by
  have hunmatched := ScanError.isUnmatched_bodilessHeader closed header openedAt pos
  have hmismatch : ((Fault.bodilessHeader closed header openedAt).found pos).isMismatch = true := by
    rw [ScanError.isMismatch, hunmatched]
    rfl
  have hconcat := h.concat ((Fault.bodilessHeader closed header openedAt).found pos)
  rw [hunmatched, hmismatch, if_neg (show ((Fault.bodilessHeader closed header openedAt).found
    pos).kind ≠ .unbalancedBraces from ErrorKind.noConfusion)] at hconcat
  simpa [Fault.found] using hconcat

/-- An error that is no mismatch is noted apart, if braces cause it. -/
theorem concat_of_ne (h : BraceErrors errors unopened bodiless unclosed) {e : ScanError}
    (he : e.kind ≠ .contextMismatch) :
    BraceErrors (errors ++ [e]) unopened bodiless
      (unclosed ++ if e.kind = .unbalancedBraces then [e.position] else []) := by
  have hconcat := h.concat e
  rw [ScanError.isUnmatched_of_ne he, ScanError.isMismatch_of_ne he] at hconcat
  simpa using hconcat

/-- Unterminated regions are no brace errors. -/
theorem guardIssue {log : Log} (h : BraceErrors log.errors unopened bodiless unclosed)
    (issue : GuardIssue) : BraceErrors (log.guardIssue issue).errors unopened bodiless unclosed := by
  unfold Log.guardIssue
  split
  · next quote _ =>
    have hconcat := h.concat_of_ne (e := (Fault.unterminatedString quote).found issue.start)
      ErrorKind.noConfusion
    rw [if_neg (show ((Fault.unterminatedString quote).found issue.start).kind ≠ .unbalancedBraces
      from ErrorKind.noConfusion), List.append_nil] at hconcat
    rwa [Log.errors_error]
  · exact h

end BraceErrors

/-! ## The braces on the stack -/

namespace Stack

variable {s t : Stack} {signs : List Sign}

/-- The stack holds the braces that are unclosed among the signs, and a header on top of
them exactly if it was the last sign. -/
inductive Reads (signs : List Sign) : Stack → Prop where
  | settled {s : Stack} (waits : Sign.isPending signs = false)
      (braces : ∀ e ∈ s.entries, e.kind = .brace)
      (places : s.entries.map Entry.openedAt = (Sign.unclosed signs).reverse) : Reads signs s
  | waiting {e : Entry} {below : List Entry} {lastScope : Scope}
      (waits : Sign.isPending signs = true) (header : e.kind = .header)
      (braces : ∀ e ∈ below, e.kind = .brace)
      (places : below.map Entry.openedAt = (Sign.unclosed signs).reverse) :
      Reads signs ⟨e :: below, lastScope⟩

theorem reads_empty : Reads [] Stack.empty :=
  .settled rfl (fun e he => by cases he) rfl

/-- A stack without a waiting header holds braces only. -/
theorem Reads.of_settled (h : Reads signs s) (hwaits : Sign.isPending signs = false) :
    (∀ e ∈ s.entries, e.kind = .brace) ∧
      s.entries.map Entry.openedAt = (Sign.unclosed signs).reverse := by
  cases h with
  | settled _ braces places => exact ⟨braces, places⟩
  | waiting waits => exact absurd (hwaits.symm.trans waits) Bool.noConfusion

/-- No header waits where the top of the stack is a brace. -/
theorem Reads.not_waiting (h : Reads signs s) {pos : Position}
    (hopen : s.openHeaderBody pos = none) : Sign.isPending signs = false := by
  cases h with
  | settled waits => exact waits
  | waiting waits header => simp [openHeaderBody, header] at hopen

theorem Reads.openHeaderBody (h : Reads signs s) {pos : Position}
    (hopen : s.openHeaderBody pos = some t) : Reads (signs ++ [.opening pos]) t := by
  cases h with
  | settled waits braces =>
    obtain ⟨entries, lastScope⟩ := s
    cases entries with
    | nil => cases hopen
    | cons e below => simp [Stack.openHeaderBody, braces e List.mem_cons_self] at hopen
  | waiting waits header braces places =>
    simp only [Stack.openHeaderBody, header, if_pos, Option.some.injEq] at hopen
    subst hopen
    refine .settled (by simp) ?_ ?_
    · intro x hx
      rcases List.mem_cons.1 hx with rfl | hx
      · rfl
      · exact braces x hx
    · rw [Sign.unclosed_concat_opening, List.reverse_concat, List.map_cons, places]

theorem Reads.enter_brace (h : Reads signs s) (hwaits : Sign.isPending signs = false)
    (context : Context) (pos : Position) :
    Reads (signs ++ [.opening pos]) (s.enter context .brace pos) := by
  obtain ⟨braces, places⟩ := h.of_settled hwaits
  refine .settled (by simp) ?_ ?_
  · intro x hx
    rcases List.mem_cons.1 hx with rfl | hx
    · rfl
    · exact braces x hx
  · rw [Sign.unclosed_concat_opening, List.reverse_concat, ← places]
    rfl

theorem Reads.enter_header (h : Reads signs s) (hwaits : Sign.isPending signs = false)
    (context : Context) (pos : Position) :
    Reads (signs ++ [.header]) (s.enter context .header pos) := by
  obtain ⟨braces, places⟩ := h.of_settled hwaits
  refine .waiting (by simp) rfl braces ?_
  rw [places, Sign.unclosed_concat_other rfl]

theorem Reads.endHeader (h : Reads signs s) : Reads (signs ++ [.ending]) s.endHeader.2 := by
  have hunclosed : Sign.unclosed (signs ++ [.ending]) = Sign.unclosed signs :=
    Sign.unclosed_concat_other rfl
  cases h with
  | settled waits braces places =>
    have hsame : s.endHeader.2 = s := by
      obtain ⟨entries, lastScope⟩ := s
      cases entries with
      | nil => rfl
      | cons e below => simp [Stack.endHeader, braces e List.mem_cons_self]
    rw [hsame]
    exact .settled (by simp) braces (hunclosed.symm ▸ places)
  | waiting waits header braces places =>
    simp only [Stack.endHeader, header, if_pos]
    exact .settled (by simp) braces (hunclosed.symm ▸ places)

/-- An embedded block leaves the entries as they are. -/
theorem Reads.block (h : Reads signs s) (hwaits : Sign.isPending signs = false)
    (hentries : t.entries = s.entries) (context : Context) (brace : Cursor) :
    Reads (signs ++ [.block context brace]) t := by
  obtain ⟨braces, places⟩ := h.of_settled hwaits
  refine .settled (by simp) (hentries.symm ▸ braces) ?_
  rw [Sign.unclosed_concat_other rfl, hentries, places]

/-- How a closing brace behind some signs is taken. -/
inductive Closing (signs : List Sign) : Except StackError Entry → Prop where
  | matched {e : Entry} (closes : Sign.Closes signs) (waits : Sign.isPending signs = false) :
      Closing signs (.ok e)
  | unmatched (stray : ¬ Sign.Closes signs) : Closing signs (.error .empty)
  | bodiless {expected found : Context} {openedAt : Position} (closes : Sign.Closes signs)
      (waits : Sign.isPending signs = true) : Closing signs (.error (.mismatch expected found openedAt))

/-- A closing brace closes the innermost brace, with the header above it. -/
theorem Reads.closeBrace (h : Reads signs s) (pos : Position) :
    Reads (signs ++ [.closing pos]) s.closeBrace.2 ∧ Closing signs s.closeBrace.1 := by
  -- what is left of the braces when the innermost one is gone
  have hpop : ∀ {e : Entry} {below : List Entry}, (∀ x ∈ e :: below, x.kind = .brace) →
      (e :: below).map Entry.openedAt = (Sign.unclosed signs).reverse → ∀ lastScope,
      Reads (signs ++ [.closing pos]) ⟨below, lastScope⟩ ∧ Sign.Closes signs := by
    intro e below hbraces hplaces lastScope
    have hunclosed : Sign.unclosed signs = (below.map Entry.openedAt).reverse ++ [e.openedAt] := by
      rw [← List.reverse_reverse (Sign.unclosed signs), ← hplaces]
      simp
    refine ⟨.settled (by simp) (fun x hx => hbraces x (List.mem_cons_of_mem e hx)) ?_,
      Sign.closes_iff.2 ?_⟩
    · rw [Sign.unclosed_concat_closing, hunclosed, List.dropLast_concat, List.reverse_reverse]
    · simp [hunclosed]
  have hnone : [] = (Sign.unclosed signs).reverse → ∀ lastScope,
      Reads (signs ++ [.closing pos]) ⟨[], lastScope⟩ ∧ ¬ Sign.Closes signs := by
    intro hplaces lastScope
    have hunclosed : Sign.unclosed signs = [] := by simpa using hplaces.symm
    refine ⟨.settled (by simp) (fun x hx => by cases hx) ?_, fun hcloses => ?_⟩
    · rw [Sign.unclosed_concat_closing, hunclosed]
      rfl
    · exact Sign.closes_iff.1 hcloses hunclosed
  cases h with
  | settled waits braces places =>
    obtain ⟨entries, lastScope⟩ := s
    cases entries with
    | nil =>
      obtain ⟨hreads, hstray⟩ := hnone places lastScope
      exact ⟨hreads, .unmatched hstray⟩
    | cons e below =>
      obtain ⟨hreads, hcloses⟩ := hpop braces places lastScope
      simp only [Stack.closeBrace, braces e List.mem_cons_self, if_pos]
      exact ⟨hreads, .matched hcloses waits⟩
  | @waiting e below lastScope waits header braces places =>
    cases below with
    | nil =>
      obtain ⟨hreads, hstray⟩ := hnone places lastScope
      simp only [Stack.closeBrace, header, seek]
      exact ⟨hreads, .unmatched hstray⟩
    | cons b below =>
      obtain ⟨hreads, hcloses⟩ := hpop braces places lastScope
      simp only [Stack.closeBrace, header, seek, braces b List.mem_cons_self, decide_true]
      exact ⟨hreads, .bodiless hcloses waits⟩

/-- The outermost open brace is the first unclosed one. -/
theorem Reads.outermostBrace (h : Reads signs s) :
    s.outermostBrace.map Entry.openedAt = (Sign.unclosed signs).head? := by
  have hfind : ∀ entries : List Entry, (∀ e ∈ entries, e.kind = .brace) →
      entries.map Entry.openedAt = (Sign.unclosed signs).reverse →
      (entries.reverse.find? (·.kind = .brace)).map Entry.openedAt =
        (Sign.unclosed signs).head? := by
    intro entries hbraces hplaces
    have hfilter : entries.reverse.filter (·.kind = .brace) = entries.reverse :=
      List.filter_eq_self.2 fun e he => by simpa using hbraces e (List.mem_reverse.1 he)
    rw [← List.head?_filter, hfilter, ← List.head?_map, List.map_reverse, hplaces,
      List.reverse_reverse]
  unfold Stack.outermostBrace
  cases h with
  | settled waits braces places => exact hfind _ braces places
  | @waiting e below lastScope waits header braces places =>
    have hskip : (e :: below).reverse.find? (·.kind = .brace) =
        below.reverse.find? (·.kind = .brace) := by
      rw [List.reverse_cons, List.find?_append]
      simp [header]
    rw [hskip]
    exact hfind below braces places

end Stack

namespace Outline

variable {options : Options} {o : Outline} {c : Cursor} {before signs : List Sign}

/-! ## The invariant -/

/-- What the structural pass knows of the signs met so far, while all blocks are closed. -/
structure Reads (o : Outline) (signs : List Sign) : Prop where
  stack : o.stack.Reads signs
  /-- The words behind a header are no heads of statements. -/
  head : Sign.isPending signs → o.head = .other
  errors : BraceErrors o.log.errors (Sign.unopened signs) (Sign.bodiless signs) []

/-- A sign other than a closing brace causes no error. -/
theorem Reads.errors_concat (h : o.Reads signs) {s : Sign} (hs : ∀ pos, s ≠ .closing pos) :
    BraceErrors o.log.errors (Sign.unopened (signs ++ [s])) (Sign.bodiless (signs ++ [s])) [] := by
  rw [Sign.unopened_concat_other hs, Sign.bodiless_concat_other hs]
  exact h.errors

theorem Reads.not_waiting (h : o.Reads signs) (hhead : o.head ≠ .other) :
    Sign.isPending signs = false := by
  cases hwaits : Sign.isPending signs with
  | false => rfl
  | true => exact absurd (h.head hwaits) hhead

/-- The invariant after a sign that leaves no header waiting. -/
theorem Reads.concat (h : o.Reads signs) {o' : Outline} {s : Sign}
    (hs : ∀ pos, s ≠ .closing pos) (hheader : s ≠ .header)
    (hstack : o'.stack.Reads (signs ++ [s])) (hlog : o'.log = o.log) :
    o'.Reads (signs ++ [s]) where
  stack := hstack
  head := by
    rw [Sign.isPending_concat]
    exact fun hpending => absurd (of_decide_eq_true hpending) hheader
  errors := by
    rw [hlog]
    exact h.errors_concat hs

theorem Reads.beforeCode (h : o.Reads before) (isBrace : Bool) (c : Cursor) :
    (o.beforeCode isBrace c).Reads (before ++ (o.lineSign? isBrace).toList) := by
  obtain ⟨hsign, hbefore⟩ | ⟨hsign, hbefore⟩ := o.beforeCode_cases isBrace c
  · obtain ⟨hstack, -, -, hlog⟩ := changeStack_frame o c o.stack.endHeader.2
    rw [hsign, hbefore]
    exact h.concat (fun _ => Sign.noConfusion) Sign.noConfusion (hstack.symm ▸ h.stack.endHeader)
      hlog
  · rw [hsign, hbefore, Option.toList_none, List.append_nil]
    exact ⟨h.stack, h.head, h.errors⟩

/-! ## Steps -/

/-- A closing brace is an error if it matches nothing or if a header waits. -/
theorem Reads.closeBrace (h : o.Reads before) (after : c.Later) :
    (o.closeBrace c after).Reads (before ++ [.closing c.position]) := by
  obtain ⟨hreads, hclosing⟩ := h.stack.closeBrace c.position
  obtain ⟨hstack, -, -, hlog⟩ := changeStack_frame o after.cursor o.stack.closeBrace.2
  have hpending : Sign.isPending (before ++ [.closing c.position]) = false := by simp
  have herrors := h.errors
  rw [← hlog] at herrors
  rw [← hstack] at hreads
  unfold Outline.closeBrace
  simp only
  generalize o.changeStack after.cursor o.stack.closeBrace.2 = o' at hreads herrors ⊢
  refine ⟨?_, fun hwaits => absurd (hpending.symm.trans hwaits) Bool.noConfusion, ?_⟩
  · split <;> exact hreads
  · rw [Sign.unopened_concat_closing, Sign.bodiless_concat_closing]
    cases hclosed : o.stack.closeBrace.1 with
    | ok e =>
      rw [hclosed] at hclosing
      cases hclosing with
      | matched closes waits => simpa [closes, waits] using herrors
    | error error =>
      rw [hclosed] at hclosing
      cases hclosing with
      | unmatched stray =>
        simpa [stray, fault] using herrors.concat_unmatched c.position
      | bodiless closes waits =>
        simpa [closes, waits, fault] using herrors.concat_bodiless _ _ _ c.position

theorem Reads.acts {flow : Flow c} (h : o.Reads before) (hflow : Acts options o c signs flow)
    (hblocks : ∀ s ∈ signs, s.isOpenBlock = false) :
    flow.Meets (fun o' _ => o'.Reads (before ++ signs)) fun _ => False := by
  have hstart : ∀ {o : Outline}, o.head = .start → o.head ≠ .other := by
    intro o hhead hother
    exact Head.noConfusion (hhead.symm.trans hother)
  cases hflow with
  | pass next begins =>
    rw [List.append_nil]
    refine ⟨h.stack, fun hwaits => ?_, h.errors⟩
    rcases begins with hbegin | rfl
    · exact absurd (h.head hwaits) (hstart hbegin)
    · rfl
  | openBody after brace opened =>
    exact h.concat (fun _ => Sign.noConfusion) Sign.noConfusion (h.stack.openHeaderBody opened) rfl
  | @openElement context after brace noHeader kind =>
    obtain ⟨hstack, -, -, hlog⟩ :=
      changeStack_frame o after.cursor (o.stack.enter context .brace c.position)
    have hreads := h.stack.enter_brace (h.stack.not_waiting noHeader) context c.position
    exact h.concat (fun _ => Sign.noConfusion) Sign.noConfusion (hstack.symm ▸ hreads) hlog
  | closeBrace after brace => exact h.closeBrace after
  | semicolon after =>
    obtain ⟨hstack, -, -, hlog⟩ := changeStack_frame o after.cursor o.stack.endHeader.2
    exact h.concat (fun _ => Sign.noConfusion) Sign.noConfusion (hstack.symm ▸ h.stack.endHeader)
      hlog
  | @header context next start declared =>
    obtain ⟨hstack, hhead, -, hlog⟩ := changeStack_frame { o with head := .other } c
      (o.stack.enter context .header c.position)
    have hreads := h.stack.enter_header (h.not_waiting (hstart start)) context c.position
    exact ⟨hstack.symm ▸ hreads, fun _ => hhead,
      hlog.symm ▸ h.errors_concat fun _ => Sign.noConfusion⟩
  | block after keyword brace embeds =>
    obtain ⟨o', next, rfl, hstack, hlog⟩ := embeds.of_closed (hblocks _ (List.mem_singleton_self _))
    have hwaits := h.not_waiting fun hother => Head.noConfusion (keyword.symm.trans hother)
    exact h.concat (fun _ => Sign.noConfusion) Sign.noConfusion
      (h.stack.block hwaits (by rw [hstack]) _ _) hlog
  | originStop brace start isRaw isBrace embeds =>
    obtain ⟨o', next, hflow, -⟩ := embeds.of_closed (hblocks _ (List.mem_singleton_self _))
    cases hflow
  | @origin raw o' brace next start isRaw isBrace embeds =>
    obtain ⟨o'', next', hflow, hstack, hlog⟩ :=
      embeds.of_closed (hblocks _ (List.mem_singleton_self _))
    cases hflow
    obtain ⟨e, hcontext, hopened, hlog'⟩ := o.openOrigin_frame c brace.cursor
    obtain ⟨hstack', -, -, hlog''⟩ :=
      changeStack_frame o' next.cursor (o'.stack.exit .originBody).2
    have hentries : (o'.changeStack next.cursor (o'.stack.exit .originBody).2).stack.entries =
        o.stack.entries := by
      rw [hstack', hstack, hopened, ← hcontext, Stack.exit_top]
    exact h.concat (fun _ => Sign.noConfusion) Sign.noConfusion
      (h.stack.block (h.not_waiting (hstart start)) hentries _ _) (hlog''.trans (hlog.trans hlog'))

theorem Reads.guardIssue (h : o.Reads signs) (issue : GuardIssue) :
    (o.guardIssue issue).Reads signs :=
  ⟨h.stack, h.head, h.errors.guardIssue issue⟩

/-- The end of the document is an error if a brace is open. -/
theorem Reads.finish (h : o.Reads signs) (c : Cursor) :
    BraceErrors (o.finish c).log.errors (Sign.unopened signs) (Sign.bodiless signs)
      ((Sign.unclosed signs).take 1) := by
  have houtermost := h.stack.outermostBrace
  rw [log_finish, List.take_one, ← houtermost]
  cases o.stack.outermostBrace with
  | none => exact h.errors
  | some entry =>
    have hkind : ((Fault.unclosedBrace entry.context).found entry.openedAt).kind =
        .unbalancedBraces := rfl
    have hconcat := h.errors.concat_of_ne (e := (Fault.unclosedBrace entry.context).found
      entry.openedAt) ErrorKind.noConfusion
    rw [if_pos hkind] at hconcat
    exact (Log.errors_error _ _).symm ▸ hconcat

theorem Reads.steps {flow : Flow c} (h : o.Reads before) (hflow : Steps options o c signs flow)
    (hblocks : ∀ s ∈ signs, s.isOpenBlock = false) :
    flow.Meets (fun o' _ => o'.Reads (before ++ signs)) fun o' =>
      BraceErrors o'.log.errors (Sign.unopened (before ++ signs)) (Sign.bodiless (before ++ signs))
        ((Sign.unclosed (before ++ signs)).take 1) := by
  cases hflow with
  | finish atEnd =>
    rw [List.append_nil]
    exact h.finish c
  | gap next =>
    rw [List.append_nil]
    exact ⟨h.stack, h.head, h.errors⟩
  | openComment atEnd comment =>
    rw [List.append_nil]
    exact h.guardIssue _
  | openString atEnd string => exact (h.beforeCode false c).guardIssue _
  | code acts =>
    rw [← List.append_assoc]
    have hmeets := (h.beforeCode _ c).acts acts fun s hs => hblocks s (List.mem_append_right _ hs)
    cases flow with
    | onward o' next => exact hmeets
    | stop o' => exact hmeets.elim

/-- If all blocks are closed, the brace errors of the structural pass are those of matching
the braces of the signs. -/
theorem braceErrors_ofText (options : Options) (text : List Char) {log : Log}
    (hlog : BraceErrors log.errors [] [] [])
    (hblocks : ∀ s ∈ signsOfText options text log, s.isOpenBlock = false) :
    BraceErrors (ofText options text log).log.errors
      (Sign.unopened (signsOfText options text log)) (Sign.bodiless (signsOfText options text log))
      ((Sign.unclosed (signsOfText options text log)).take 1) := by
  refine ofText_meets
    (I := fun o _ signs => (∀ s ∈ signs, s.isOpenBlock = false) → o.Reads signs)
    (F := fun o signs => (∀ s ∈ signs, s.isOpenBlock = false) →
      BraceErrors o.log.errors (Sign.unopened signs) (Sign.bodiless signs)
        ((Sign.unclosed signs).take 1))
    (fun {o c before signs flow} h hflow => ?_) (fun first _ _ => ?_) hblocks
  · cases flow with
    | onward o' next =>
      intro hclosed
      rw [List.forall_mem_append] at hclosed
      exact (h hclosed.1).steps hflow hclosed.2
    | stop o' =>
      intro hclosed
      rw [List.forall_mem_append] at hclosed
      exact (h hclosed.1).steps hflow hclosed.2
  · exact ⟨Stack.reads_empty, fun hwaits => Bool.noConfusion hwaits, hlog⟩

end Outline

/-! ## Scans -/

namespace Scan

variable {options : Options} {text : List Char} {scan : Scan}

/-- The signs of a document that is scanned. -/
def signs (options : Options) (text : List Char) : List Sign :=
  Outline.signsOfText options text (encodingRemarks text .empty)

/-- The encoding of a document causes no errors. -/
theorem errors_encodingRemarks (text : List Char) (log : Log) :
    (encodingRemarks text log).errors = log.errors := by
  unfold encodingRemarks
  generalize EncodingIssue.all text = issues
  induction issues generalizing log with
  | nil => rfl
  | cons issue issues ih =>
    rw [List.foldl_cons, ih]
    rfl

/-- If all embedded blocks of a document are closed, its brace errors are those of matching
braces: one at each closing brace that matches nothing, one at each that matches a brace
while a header waits for its body, and one at the first opening brace that nothing closes. -/
theorem braceErrors_log (h : ofText? options text = .ok scan)
    (hblocks : ∀ s ∈ signs options text, s.isOpenBlock = false) :
    BraceErrors scan.log.errors (Sign.unopened (signs options text))
      (Sign.bodiless (signs options text)) ((Sign.unclosed (signs options text)).take 1) := by
  obtain rfl := eq_ofText h
  have herrors : (ofText options text).log.errors =
      (Outline.ofText options text (encodingRemarks text .empty)).log.errors :=
    (foreignRemarks_eq _ _).1
  have hlog : BraceErrors (encodingRemarks text .empty).errors [] [] [] := by
    rw [errors_encodingRemarks]
    exact ⟨rfl, rfl, rfl⟩
  rw [herrors]
  exact Outline.braceErrors_ofText options text hlog hblocks

/-- A document with a stray brace, a block, a header without a body and an open element. -/
theorem braceErrors_log_stray : ∃ scan,
    ofText? .standard "\x7d a \x7b style \x7b b \x7d [Custom] @Style c \x7d d \x7b".toList =
      .ok scan ∧
    (∀ s ∈ signs .standard "\x7d a \x7b style \x7b b \x7d [Custom] @Style c \x7d d \x7b".toList,
      s.isOpenBlock = false) ∧
    BraceErrors scan.log.errors [⟨0, 1, 1⟩] [⟨36, 1, 37⟩] [⟨40, 1, 41⟩] := by
  let text := "\x7d a \x7b style \x7b b \x7d [Custom] @Style c \x7d d \x7b".toList
  have hscan : ofText? .standard text = .ok (ofText .standard text) :=
    ofText?_eq_ok .standard (by decide) (by decide)
  have hblocks : ∀ s ∈ signs .standard text, s.isOpenBlock = false := by decide +kernel
  have hunopened : Sign.unopened (signs .standard text) = [⟨0, 1, 1⟩] := by decide +kernel
  have hbodiless : Sign.bodiless (signs .standard text) = [⟨36, 1, 37⟩] := by decide +kernel
  have hunclosed : (Sign.unclosed (signs .standard text)).take 1 = [⟨40, 1, 41⟩] := by
    decide +kernel
  have herrors := braceErrors_log hscan hblocks
  rw [hunopened, hbodiless, hunclosed] at herrors
  exact ⟨_, hscan, hblocks, herrors⟩

end Scan

end Polyglot
