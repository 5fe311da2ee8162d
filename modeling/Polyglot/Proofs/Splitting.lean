-- SUMMARY: To cut local scripts into statements changes nothing else in the structural pass.
import Polyglot.Proofs.Outline
import Polyglot.Proofs.Statement

/-!
# The structural pass with and without cuts

Two passes over one document that differ only in whether local scripts are cut
into statements go through the same states, but for what they emit: where one
emits a script as a whole, the other emits its statements.
-/

namespace Polyglot

/-- The same options, with local scripts kept whole. -/
def Options.unsplit (options : Options) : Options := { options with splitStatements := false }

/-- What is emitted in the place of a fragment if local scripts are cut. -/
def Fragment.pieces (options : Options) (u : Fragment) : List Fragment :=
  if u.context = .scriptLocal && options.splitStatements then u.statements else [u.unnumbered]

namespace Outline

variable {options : Options} {s w : Outline}

/-- The first pass has emitted the pieces of what the second one has emitted. In all else
the two passes are in the same state. -/
structure Mirrors (options : Options) (s w : Outline) : Prop where
  same : ∃ emitted issued, s = { w with emitted := emitted, issued := issued }
  emitted : s.fragments.map Fragment.unnumbered = w.fragments.flatMap (Fragment.pieces options)
  stack : w.stack.Sound
  template : w.run.context.isTemplate

/-- How two passes go on after a step at one cursor. -/
inductive Flow.Mirrors (options : Options) {c : Cursor} : Flow c → Flow c → Prop where
  | onward {s w : Outline} {next : c.Later} (h : s.Mirrors options w) :
      Flow.Mirrors options (.onward s next) (.onward w next)
  | stop {s w : Outline} (h : s.Mirrors options w) : Flow.Mirrors options (.stop s) (.stop w)

/-! ## Emitting -/

theorem pieces_of_not {u : Fragment} (h : ¬ (u.context = .scriptLocal ∧ options.splitStatements)) :
    u.pieces options = [u.unnumbered] :=
  if_neg (by simpa using h)

/-- A fragment that is not cut is emitted by both passes. -/
theorem Mirrors.emit (h : s.Mirrors options w) {frame : Frame}
    (hframe : ¬ (frame.context = .scriptLocal ∧ options.splitStatements))
    (degraded : Bool) (c d : Cursor) :
    (s.emit frame degraded c d).Mirrors options (w.emit frame degraded c d) := by
  obtain ⟨⟨emitted, issued, rfl⟩, hemitted, hstack, htemplate⟩ := h
  simp only [Outline.emit]
  split
  · exact ⟨⟨emitted, issued, rfl⟩, hemitted, hstack, htemplate⟩
  · next content _ =>
    refine ⟨⟨_, _, rfl⟩, ?_, hstack, htemplate⟩
    simp only [fragments, List.reverse_cons, List.map_append, List.flatMap_append] at hemitted ⊢
    rw [hemitted]
    simp only [List.flatMap_singleton]
    rw [pieces_of_not hframe]
    rfl

theorem ne_scriptLocal_of_isTemplate {context : Context} (h : context.isTemplate) :
    context ≠ .scriptLocal := by
  rintro rfl
  cases h

theorem Mirrors.emitRun (h : s.Mirrors options w) (c : Cursor) :
    (s.emitRun c).Mirrors options (w.emitRun c) := by
  have hframe := ne_scriptLocal_of_isTemplate h.template
  have hsame : s.run = w.run ∧ s.mark = w.mark := by
    obtain ⟨emitted, issued, rfl⟩ := h.same
    exact ⟨rfl, rfl⟩
  unfold Outline.emitRun
  rw [hsame.1, hsame.2]
  exact h.emit (fun hlocal => hframe hlocal.1) false w.mark c

theorem emit_part (u : Fragment)
    (hu : u.features = .none ∧ u.literals = [] ∧ u.degraded = false) (c d : Cursor)
    (s : Outline) : (s.emit u.toFrame false c d).fragments.map Fragment.unnumbered =
      s.fragments.map Fragment.unnumbered ++ (u.part? c d).toList := by
  obtain ⟨hfeatures, hliterals, hdegraded⟩ := hu
  unfold Outline.emit Fragment.part?
  cases c.textTo d with
  | nil => simp
  | cons => simp [fragments, Fragment.unnumbered, hfeatures, hliterals, hdegraded]

/-- The stretches of a script are emitted as its parts. -/
theorem foldl_emit (u : Fragment)
    (hu : u.features = .none ∧ u.literals = [] ∧ u.degraded = false)
    (stretches : List (Cursor × Cursor)) (s : Outline) :
    (∃ emitted issued, stretches.foldl (fun o (c, d) => o.emit u.toFrame false c d) s =
      { s with emitted := emitted, issued := issued }) ∧
    (stretches.foldl (fun o (c, d) => o.emit u.toFrame false c d) s).fragments.map
        Fragment.unnumbered =
      s.fragments.map Fragment.unnumbered ++ stretches.filterMap fun (c, d) => u.part? c d := by
  induction stretches generalizing s with
  | nil => exact ⟨⟨_, _, rfl⟩, by simp⟩
  | cons pair stretches ih =>
    obtain ⟨c, d⟩ := pair
    obtain ⟨⟨emitted, issued, heq⟩, hmap⟩ := ih (s.emit u.toFrame false c d)
    rw [List.foldl_cons]
    refine ⟨⟨emitted, issued, ?_⟩, ?_⟩
    · rw [heq]
      unfold Outline.emit
      split <;> rfl
    · rw [hmap, emit_part u hu, List.append_assoc, List.filterMap_cons]
      cases hpart : u.part? c d with
      | none => simp only [hpart, Option.toList_none, List.nil_append]
      | some f => simp only [hpart, Option.toList_some, List.singleton_append]

/-- The body of a block is emitted whole, or in its pieces. -/
theorem Mirrors.emitBody (h : s.Mirrors options w) (frame : Frame) (body : Cursor)
    {text : List Char} (htext : text ≠ []) :
    (emitBody options s frame body text).Mirrors options
      (emitBody options.unsplit w frame body text) := by
  have hunsplit : options.unsplit.splitStatements = false := rfl
  rw [emitBody_whole hunsplit]
  by_cases hsplit : frame.context = .scriptLocal ∧ options.splitStatements
  · have halone : (⟨body.position, text⟩ : Cursor).Consumes text
        ⟨body.position.advanceOver text, []⟩ := ⟨by simp, rfl⟩
    rw [emit_text w frame false halone htext]
    let u := frame.fragment false w.issued text body.position (body.position.advanceOver text)
    have hbody : Outline.emitBody options s frame body text =
        (u.cursor.stretches (statementCuts u.cursor)).foldl
          (fun o (c, d) => o.emit u.toFrame false c d) s := by
      simp only [Outline.emitBody, hsplit.1, hsplit.2]
      rfl
    obtain ⟨⟨emitted, issued, heq⟩, hmap⟩ := foldl_emit u ⟨rfl, rfl, rfl⟩
      (u.cursor.stretches (statementCuts u.cursor)) s
    rw [← hbody] at heq hmap
    obtain ⟨⟨emitted', issued', rfl⟩, hemitted, hstack, htemplate⟩ := h
    refine ⟨⟨emitted, issued, heq⟩, ?_, hstack, htemplate⟩
    have hpieces : u.pieces options = u.statements :=
      if_pos (by simpa [u, Frame.fragment] using hsplit)
    rw [hmap, hemitted]
    simp only [fragments, List.reverse_cons, List.flatMap_append, List.flatMap_singleton]
    exact congrArg _ hpieces.symm
  · rw [emitBody_of_not hsplit]
    exact h.emit hsplit false _ _

/-! ## Changes of context -/

/-- Two passes stay in step where both change in the same way. -/
theorem Mirrors.map (h : s.Mirrors options w) (φ : Outline → Outline)
    (hφ : ∀ o emitted issued, φ { o with emitted := emitted, issued := issued } =
      { φ o with emitted := emitted, issued := issued })
    (hemitted : ∀ o, (φ o).emitted = o.emitted) (hstack : (φ w).stack.Sound)
    (htemplate : (φ w).run.context.isTemplate) : (φ s).Mirrors options (φ w) := by
  obtain ⟨⟨emitted, issued, rfl⟩, hsame, -, -⟩ := h
  refine ⟨⟨emitted, issued, hφ w emitted issued⟩, ?_, hstack, htemplate⟩
  simp only [fragments, hemitted] at hsame ⊢
  exact hsame

theorem Mirrors.changeStack (h : s.Mirrors options w) (c : Cursor) {stack : Stack}
    (hstack : stack.Sound) : (s.changeStack c stack).Mirrors options (w.changeStack c stack) := by
  have hrun : s.run = w.run := by
    obtain ⟨emitted, issued, rfl⟩ := h.same
    rfl
  by_cases hcontext : stack.current = w.run.context
  · rw [changeStack_of_eq s c (hrun ▸ hcontext), changeStack_of_eq w c hcontext]
    exact h.map ({ · with stack := stack }) (fun _ _ _ => rfl) (fun _ => rfl) hstack h.template
  · rw [changeStack_of_ne s c (hrun ▸ hcontext), changeStack_of_ne w c hcontext]
    exact (h.emitRun c).map ({ · with stack := stack, mark := c, run := stack.frame })
      (fun _ _ _ => rfl) (fun _ => rfl) hstack hstack.frame.1

theorem Mirrors.setHead (h : s.Mirrors options w) (head : Head) :
    ({ s with head := head } : Outline).Mirrors options { w with head := head } :=
  h.map ({ · with head := head }) (fun _ _ _ => rfl) (fun _ => rfl) h.stack h.template

theorem Mirrors.setStack (h : s.Mirrors options w) {stack : Stack} (hstack : stack.Sound) :
    ({ s with stack := stack } : Outline).Mirrors options { w with stack := stack } :=
  h.map ({ · with stack := stack }) (fun _ _ _ => rfl) (fun _ => rfl) hstack h.template

theorem Mirrors.fault (h : s.Mirrors options w) (f : Fault) (c : Cursor) :
    (s.fault f c).Mirrors options (w.fault f c) :=
  h.map (·.fault f c) (fun _ _ _ => rfl) (fun _ => rfl) h.stack h.template

theorem Mirrors.guardIssue (h : s.Mirrors options w) (issue : GuardIssue) :
    (s.guardIssue issue).Mirrors options (w.guardIssue issue) :=
  h.map (·.guardIssue issue) (fun _ _ _ => rfl) (fun _ => rfl) h.stack h.template

/-! ## Code -/

theorem Mirrors.beforeCode (h : s.Mirrors options w) (isBrace : Bool) (c : Cursor) :
    (s.beforeCode isBrace c).Mirrors options (w.beforeCode isBrace c) := by
  have hchange := h.changeStack c h.stack.endHeader.1
  obtain ⟨emitted, issued, rfl⟩ := h.same
  simp only [Outline.beforeCode]
  split
  · exact hchange.map ({ · with newline := false, head := .start }) (fun _ _ _ => rfl)
      (fun _ => rfl) hchange.stack hchange.template
  · exact h.map ({ · with newline := false }) (fun _ _ _ => rfl) (fun _ => rfl) h.stack h.template

theorem Mirrors.finish (h : s.Mirrors options w) (c : Cursor) :
    (s.finish c).Mirrors options (w.finish c) := by
  have hrun := h.emitRun c
  simp only [Outline.finish]
  generalize s.emitRun c = s₁ at hrun ⊢
  generalize w.emitRun c = w₁ at hrun ⊢
  obtain ⟨emitted, issued, rfl⟩ := hrun.same
  simp only
  split
  · next entry _ =>
    exact hrun.map (fun o => { o with
        log := o.log.error ((Fault.unclosedBrace entry.context).found entry.openedAt) })
      (fun _ _ _ => rfl) (fun _ => rfl) hrun.stack hrun.template
  · exact hrun

theorem Mirrors.embedded (h : s.Mirrors options w) (context : Context) (c : Cursor) :
    Flow.Mirrors options (embedded options s context c)
      (embedded options.unsplit w context c) := by
  have hsame : s.stack = w.stack := by
    obtain ⟨emitted, issued, rfl⟩ := h.same
    rfl
  have hexit : (((w.stack.enter context .brace c.position).exit context).2).Sound := by
    rw [Stack.exit_enter_eq]
    exact fun e he => ⟨(h.stack e he).1, Nat.le_succ_of_le (h.stack e he).2⟩
  cases hclose : c.matchingClose context.guardSet with
  | error unbalanced =>
    have hissue : (unbalanced.issue.elim s s.guardIssue).Mirrors options
        (unbalanced.issue.elim w w.guardIssue) := by
      cases unbalanced.issue with
      | none => exact h
      | some issue => exact h.guardIssue issue
    simp only [Outline.embedded, Outline.embeddedBy, hclose, hsame]
    refine .stop (((hissue.emitRun _).fault _ _).emit ?_ _ _ _)
    rintro ⟨hraw, -⟩
    cases hraw
  | ok close =>
    simp only [Outline.embedded, Outline.embeddedBy, hclose, hsame]
    apply Flow.Mirrors.onward
    split
    · exact (h.setStack hexit).setHead .start
    · next hne =>
      have htext : trimEnd (c.advance.skipBlank.textTo close.cursor) ≠ [] := by simpa using hne
      have hbody := (h.emitRun c.advance.skipBlank).emitBody
        (w.stack.enter context .brace c.position).frame c.advance.skipBlank htext
      exact hbody.map ({ · with
          stack := ((w.stack.enter context .brace c.position).exit context).2
          mark := c.advance.skipBlank.skip
            (trimEnd (c.advance.skipBlank.textTo close.cursor)).length
          run := ((w.stack.enter context .brace c.position).exit context).2.frame
          head := .start }) (fun _ _ _ => rfl) (fun _ => rfl) hexit hexit.frame.1

theorem Mirrors.openBrace (h : s.Mirrors options w) {c : Cursor} (after : c.Later) :
    Flow.Mirrors options (openBrace options s c after)
      (openBrace options.unsplit w c after) := by
  obtain ⟨emitted, issued, rfl⟩ := h.same
  unfold Outline.openBrace
  simp only
  split
  · next k _ => exact h.embedded _ c
  · split
    · next stack hstack =>
      obtain ⟨hsound, -⟩ := h.stack.openHeaderBody hstack
      exact .onward ((h.setStack hsound).setHead .start)
    · have hcontext : (if w.stack.current = .configurationBody then Context.configurationBody
          else .elementBody).isTemplate := by
        split <;> rfl
      exact .onward ((h.changeStack _ (h.stack.enter hcontext _ _)).setHead .start)

theorem Mirrors.closeBrace (h : s.Mirrors options w) {c : Cursor} (after : c.Later) :
    (s.closeBrace c after).Mirrors options (w.closeBrace c after) := by
  have hchange := (h.changeStack after.cursor h.stack.closeBrace.1).setHead .start
  obtain ⟨emitted, issued, rfl⟩ := h.same
  simp only [Outline.closeBrace]
  split
  · exact hchange
  · exact hchange.fault _ c
  · exact hchange.fault _ c

theorem Mirrors.semicolon (h : s.Mirrors options w) {c : Cursor} (after : c.Later) :
    (s.semicolon after).Mirrors options (w.semicolon after) := by
  have hchange := (h.changeStack after.cursor h.stack.endHeader.1).setHead .start
  obtain ⟨emitted, issued, rfl⟩ := h.same
  exact hchange

theorem Mirrors.declaration (h : s.Mirrors options w) {c : Cursor} (after : c.Later) :
    Flow.Mirrors options (declaration options s c after)
      (declaration options.unsplit w c after) := by
  have hsame : s.stack = w.stack := by
    obtain ⟨emitted, issued, rfl⟩ := h.same
    rfl
  simp only [Outline.declaration]
  cases hdecl : Cursor.declaration? after with
  | none => exact .onward (h.setHead .other)
  | some found =>
    obtain ⟨context, header⟩ := found
    obtain ⟨word, hword⟩ := ofDeclaration?_of_declaration? hdecl
    have hcontext := isTemplate_of_declared hword
    have hchange := (h.setHead .other).changeStack c
      (h.stack.enter hcontext .header c.position)
    simp only
    have hs : ({ s with head := .other } : Outline).changeStack c
        (s.stack.enter context .header c.position) =
      ({ s with head := .other } : Outline).changeStack c
        (w.stack.enter context .header c.position) := by rw [hsame]
    rw [hs]
    generalize ({ s with head := .other } : Outline).changeStack c
      (w.stack.enter context .header c.position) = s₁ at hchange ⊢
    generalize ({ w with head := .other } : Outline).changeStack c
      (w.stack.enter context .header c.position) = w₁ at hchange ⊢
    have hsame₁ : s₁.stack = w₁.stack := by
      obtain ⟨emitted, issued, rfl⟩ := hchange.same
      rfl
    rw [hsame₁]
    split
    · exact .onward hchange
    · next raw brace hraw =>
      have hopened := (hchange.stack.openHeaderBody_getD brace.cursor.position).1
      have hflow := (hchange.setStack hopened).embedded raw brace.cursor
      generalize Outline.embedded options _ raw brace.cursor = fs at hflow ⊢
      generalize Outline.embedded options.unsplit _ raw brace.cursor = fw at hflow ⊢
      cases hflow with
      | stop hstop => exact .stop hstop
      | @onward s₂ w₂ next hnext =>
        have hsame₂ : s₂.stack = w₂.stack := by
          obtain ⟨emitted, issued, rfl⟩ := hnext.same
          rfl
        simp only [hsame₂]
        exact .onward (hnext.changeStack _ (hnext.stack.exit context).1)

theorem Mirrors.code (h : s.Mirrors options w) {c : Cursor} (ch : Char) (after : c.Later) :
    Flow.Mirrors options (code options s c ch after) (code options.unsplit w c ch after) := by
  have hbefore := h.beforeCode (ch = '{') c
  have hhead : (s.beforeCode (ch = '{') c).head = (w.beforeCode (ch = '{') c).head := by
    obtain ⟨emitted, issued, heq⟩ := hbefore.same
    rw [heq]
  unfold Outline.code
  simp only [hhead]
  split
  · exact hbefore.openBrace after
  · exact .onward (hbefore.closeBrace after)
  · exact .onward (hbefore.semicolon after)
  · split
    · exact hbefore.declaration after
    · split
      · exact .onward (hbefore.setHead _)
      · exact .onward (hbefore.setHead .other)

/-! ## The walk -/

/-- Two passes stay in step. -/
theorem Mirrors.step (h : s.Mirrors options w) (c : Cursor) :
    Flow.Mirrors options (s.step options c) (w.step options.unsplit c) := by
  have hset : templateSet options.unsplit = templateSet options := rfl
  unfold Outline.step
  rw [hset]
  split
  · exact .stop (h.finish c)
  · next issue atEnd _ =>
    apply Flow.Mirrors.onward
    split
    · exact h.guardIssue issue
    · exact (h.beforeCode false c).guardIssue issue
  · exact .onward ((h.beforeCode false c).setHead .other)
  · exact .onward h
  · next ch after _ =>
    split
    · refine .onward (h.map (fun o => { o with newline := o.newline || ch = '\n' })
        (fun _ _ _ => rfl) (fun _ => rfl) h.stack h.template)
    · exact h.code ch after

theorem Mirrors.walk (h : s.Mirrors options w) (c : Cursor) :
    (walk options s c).Mirrors options (walk options.unsplit w c) := by
  fun_induction Outline.walk options s c generalizing w with
  | case1 s c s' next hstep ih =>
    have hflow := h.step c
    rw [hstep] at hflow
    rw [Outline.walk.eq_def options.unsplit w c]
    cases hw : w.step options.unsplit c with
    | stop w' =>
      rw [hw] at hflow
      cases hflow
    | onward w' next' =>
      rw [hw] at hflow
      cases hflow with
      | onward hnext => exact ih hnext
  | case2 s c s' hstep =>
    have hflow := h.step c
    rw [hstep] at hflow
    rw [Outline.walk.eq_def options.unsplit w c]
    cases hw : w.step options.unsplit c with
    | stop w' =>
      rw [hw] at hflow
      cases hflow with
      | stop hstop => exact hstop
    | onward w' next' =>
      rw [hw] at hflow
      cases hflow

/-- With cuts in local scripts, the structural pass finds the same and emits the pieces. -/
theorem mirrors_ofText (options : Options) (text : List Char) (log : Log) :
    (ofText options text log).Mirrors options (ofText options.unsplit text log) := by
  have hinitial : (initial ⟨.start, text⟩ log).Mirrors options (initial ⟨.start, text⟩ log) :=
    ⟨⟨_, _, rfl⟩, rfl, .empty, rfl⟩
  exact hinitial.walk _

end Outline

end Polyglot
