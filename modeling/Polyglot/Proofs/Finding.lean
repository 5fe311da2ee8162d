-- SUMMARY: What a scan logs: the findings of the structural pass, then the foreign syntax block by block.
import Polyglot.Proofs.Foreign
import Polyglot.Proofs.Scan
import Polyglot.Proofs.Step

/-!
# Findings of a scan

The structural pass notes no foreign syntax, and it logs the same whether or not local
scripts are cut. Foreign syntax is noted behind it, for each classified fragment in
order, and within the text of that fragment (`Scan.warnings_eq`).
-/

namespace Polyglot

/-! ## The structural pass -/

/-- No foreign syntax was noted. -/
def Log.Quiet (log : Log) : Prop := ∀ w ∈ log.warnings, w.kind ≠ .foreignSyntax

namespace Log

variable {log : Log}

theorem Quiet.error (h : log.Quiet) (e : ScanError) : (log.error e).Quiet := h

theorem Quiet.warning (h : log.Quiet) {w : ScanWarning} (hw : w.kind ≠ .foreignSyntax) :
    (log.warning w).Quiet := by
  intro x hx
  rw [warnings_warning, List.mem_append, List.mem_singleton] at hx
  rcases hx with hx | rfl
  · exact h x hx
  · exact hw

theorem Quiet.guardIssue (h : log.Quiet) (issue : GuardIssue) : (log.guardIssue issue).Quiet := by
  unfold Log.guardIssue
  split
  · exact h.error _
  · exact h.warning (by simp [Remark.found, Remark.kind])

end Log

theorem Scan.encodingRemarks_quiet (text : List Char) {log : Log} (h : log.Quiet) :
    (Scan.encodingRemarks text log).Quiet := by
  unfold Scan.encodingRemarks
  generalize EncodingIssue.all text = issues
  induction issues generalizing log with
  | nil => exact h
  | cons issue issues ih => exact ih (h.warning (by simp [Remark.found, Remark.kind]))

namespace Outline

variable {options : Options} {o : Outline} {c : Cursor}

/-- How a step goes on without a note of foreign syntax. -/
def Flow.Quiet (flow : Flow c) : Prop := flow.Meets (fun o _ => o.log.Quiet) (·.log.Quiet)

theorem Embeds.quiet {context : Context} {flow : Flow c} (hflow : Embeds options o context c flow)
    (h : o.log.Quiet) : flow.Quiet := by
  cases hflow with
  | @unclosed unbalanced unmatched =>
    have hissue : (unbalanced.issue.elim o o.guardIssue).log.Quiet := by
      cases unbalanced.issue with
      | none => exact h
      | some issue => exact h.guardIssue issue
    simp only [Flow.Quiet, Flow.Meets, log_emit]
    apply Log.Quiet.error
    rw [emitRun, log_emit]
    exact hissue
  | blank closed => exact h
  | body closed trimmed nonempty =>
    simp only [Flow.Quiet, Flow.Meets, log_emitBody, emitRun, log_emit]
    exact h

theorem closeBrace_quiet (h : o.log.Quiet) (after : c.Later) :
    (o.closeBrace c after).log.Quiet := by
  obtain hlog | ⟨f, -, hlog⟩ := log_closeBrace o c after
  · rwa [hlog]
  · rw [hlog]
    exact h.error _

theorem finish_quiet (h : o.log.Quiet) (c : Cursor) : (o.finish c).log.Quiet := by
  rw [log_finish]
  cases o.stack.outermostBrace with
  | none => exact h
  | some entry => exact h.error _

theorem Acts.quiet {signs : List Sign} {flow : Flow c} (hflow : Acts options o c signs flow)
    (h : o.log.Quiet) : flow.Quiet := by
  have hchange : ∀ {o : Outline} (d : Cursor) (stack : Stack), o.log.Quiet →
      (o.changeStack d stack).log.Quiet := by
    intro o d stack h
    rwa [log_changeStack]
  cases hflow with
  | pass next begins => exact h
  | openBody after brace opened => exact h
  | openElement after brace noHeader kind => exact hchange _ _ h
  | closeBrace after brace => exact closeBrace_quiet h after
  | semicolon after => exact hchange _ _ h
  | header next start declared => exact hchange _ _ h
  | block after keyword brace embeds => exact embeds.quiet h
  | originStop brace start isRaw isBrace embeds => exact embeds.quiet (hchange _ _ h)
  | origin brace start isRaw isBrace embeds => exact hchange _ _ (embeds.quiet (hchange _ _ h))

theorem Steps.quiet {signs : List Sign} {flow : Flow c} (hflow : Steps options o c signs flow)
    (h : o.log.Quiet) : flow.Quiet := by
  have hbefore : ∀ isBrace, (o.beforeCode isBrace c).log.Quiet := by
    intro isBrace
    rwa [log_beforeCode]
  cases hflow with
  | finish atEnd => exact finish_quiet h c
  | gap next => exact h
  | openComment atEnd comment => exact h.guardIssue _
  | openString atEnd string => exact (hbefore false).guardIssue _
  | code acts => exact acts.quiet (hbefore _)

end Outline

/-! ## Foreign syntax -/

namespace Fragment

/-- The warning about the foreign syntax in a fragment. -/
def remark? (f : Fragment) : Option ScanWarning :=
  f.foreignSyntax.map fun (pos, marker) => (Remark.foreignSyntax marker f.context).found pos

theorem remark?_classify (f : Fragment) : f.classify.remark? = f.remark? := by
  obtain ⟨⟨context, nesting, parents, scope⟩, id, content, start, stop, features, literals,
    degraded⟩ := f
  cases context <;> rfl

variable {P : Cursor → Prop} {c e : Cursor} {f : Fragment} {fs : List Fragment} {w : ScanWarning}

theorem remark?_kind (h : f.remark? = some w) : w.kind = .foreignSyntax := by
  obtain ⟨found, -, rfl⟩ := Option.map_eq_some_iff.1 h
  rfl

/-- The foreign syntax of a fragment stands within it. -/
theorem remark?_within (hf : f.stop = f.start.advanceOver f.content) (h : f.remark? = some w) :
    f.start.offset ≤ w.position.offset ∧ w.position.offset < f.stop.offset := by
  obtain ⟨⟨pos, marker⟩, hfound, rfl⟩ := Option.map_eq_some_iff.1 h
  unfold foreignSyntax at hfound
  split at hfound
  · cases hfound
  · obtain ⟨d, ⟨u, hu⟩, hne, rfl, -⟩ := foreignFrom_within hfound
    obtain ⟨ch, text, htext⟩ := List.exists_cons_of_ne_nil hne
    have hcontent : f.content = u ++ d.rest := hu.1
    have hposition : d.position = f.start.advanceOver u := hu.2
    have hlength := ch.utf8Size_pos
    simp only [Remark.found, hposition, hf, hcontent, htext, Position.advanceOver_offset,
      byteLength_append, byteLength_cons]
    omega

/-- The foreign syntax of a tiling stands within it. -/
theorem Tiles.remark?_bounds (h : Tiles P c fs e) (hw : w ∈ fs.filterMap remark?) :
    w.kind = .foreignSyntax ∧ c.offset ≤ w.position.offset ∧ w.position.offset < e.offset := by
  obtain ⟨f, hf, hremark⟩ := List.mem_filterMap.1 hw
  obtain ⟨a, b, hcovers, -⟩ := h.exists_covers hf
  have hstop : f.stop = f.start.advanceOver f.content := by
    rw [hcovers.stop, hcovers.start, hcovers.read.2]
  have hbounds := h.bounds hf
  have hwithin := remark?_within hstop hremark
  exact ⟨remark?_kind hremark, by omega, by omega⟩

/-- The foreign syntax of a tiling is noted in order. -/
theorem Tiles.remark?_pairwise (h : Tiles P c fs e) :
    (fs.filterMap remark?).Pairwise fun v w => v.position.offset < w.position.offset := by
  induction h with
  | nil => exact .nil
  | @cons c d e f fs covers cut more ih =>
    have hfirst : Tiles P c [f] d := .cons covers cut (.nil d)
    rw [← List.singleton_append, List.filterMap_append, List.pairwise_append]
    refine ⟨?_, ih, fun v hv w hw => ?_⟩
    · cases hf : f.remark? with
      | none => simp [hf]
      | some w => simp [hf]
    · have := hfirst.remark?_bounds hv
      have := more.remark?_bounds hw
      omega

end Fragment

namespace Scan

variable {options : Options} {text : List Char}

/-- What the structural pass logs. -/
def outlineLog (options : Options) (text : List Char) : Log :=
  (Outline.ofText options.unsplit text (encodingRemarks text .empty)).log

theorem outlineLog_quiet (options : Options) (text : List Char) : (outlineLog options text).Quiet :=
  Outline.ofText_meets (I := fun o _ _ => o.log.Quiet) (F := fun o _ => o.log.Quiet)
    (fun h hflow => hflow.quiet h)
    fun _ _ => Scan.encodingRemarks_quiet text (by intro w hw; cases hw)

theorem foreignRemarks_eq (fs : List Fragment) (log : Log) :
    (foreignRemarks fs log).errors = log.errors ∧
      (foreignRemarks fs log).warnings = log.warnings ++ fs.filterMap Fragment.remark? := by
  unfold foreignRemarks
  induction fs generalizing log with
  | nil => simp
  | cons f fs ih =>
    rw [List.foldl_cons, List.filterMap_cons]
    unfold Fragment.remark?
    cases hf : f.foreignSyntax with
    | none => exact ih log
    | some found =>
      obtain ⟨pos, marker⟩ := found
      obtain ⟨herrors, hwarnings⟩ :=
        ih (log.warning ((Remark.foreignSyntax marker f.context).found pos))
      refine ⟨herrors, ?_⟩
      rw [hwarnings, Log.warnings_warning, List.append_assoc]
      rfl

/-- A scan logs what the structural pass logs, and then the foreign syntax of each block. -/
theorem log_eq (options : Options) (text : List Char) :
    (ofText options text).log.errors = (outlineLog options text).errors ∧
      (ofText options text).log.warnings = (outlineLog options text).warnings ++
        (blocks options text).flatMap fun u =>
          (work options.unmerged u).filterMap Fragment.remark? := by
  have hmirrors := Outline.mirrors_ofText options text (encodingRemarks text .empty)
  have hlog : (Outline.ofText options text (encodingRemarks text .empty)).log =
      outlineLog options text := by
    obtain ⟨emitted, issued, hsame⟩ := hmirrors.same
    rw [hsame]
    rfl
  have hfragments : Fragment.assemble options.unmerged
      (Outline.ofText options text (encodingRemarks text .empty)).fragments =
        (blocks options text).flatMap (work options.unmerged) := by
    rw [← Fragment.assemble_unnumbered, hmirrors.emitted]
    exact Fragment.assemble_flatMap (blocks_apart options text) (blocks_division options text)
      options.unmerged
  obtain ⟨herrors, hwarnings⟩ := foreignRemarks_eq
    ((Fragment.stitchAll options.stitchWindow
      (Outline.ofText options text (encodingRemarks text .empty)).fragments).map Fragment.classify)
    (Outline.ofText options text (encodingRemarks text .empty)).log
  refine ⟨herrors.trans (congrArg Log.errors hlog), hwarnings.trans ?_⟩
  have hassemble : ∀ fs, Fragment.assemble options.unmerged fs =
      ((Fragment.stitchAll options.stitchWindow fs).map Fragment.classify).map
        Fragment.unnumbered := fun _ => rfl
  have hunnumbered : ∀ fs : List Fragment,
      (fs.map Fragment.unnumbered).filterMap Fragment.remark? = fs.filterMap Fragment.remark? := by
    intro fs
    rw [List.filterMap_map]
    rfl
  rw [hlog, ← List.filterMap_flatMap, ← hfragments, hassemble, hunnumbered]

/-- The first foreign syntax of a block is the first one in its parts. -/
theorem head?_remarks {u : Fragment} (hu : u ∈ blocks options text) :
    ((work options.unmerged u).filterMap Fragment.remark?).head? = u.remark? := by
  by_cases hlocal : u.context = .scriptLocal
  · have hu' := mem_blocks_unmerged hu
    obtain ⟨-, code, hread, hmatch⟩ := isBody_of_scriptLocal hu hlocal
    rw [hlocal] at hread
    have htiles := foreignFrom_tiles undivided_foreignMarkers hread hmatch rfl
      (work_cuts hu' hlocal) (.inl rfl)
    have hremark : ∀ f : Fragment, f.context = .scriptLocal → f.remark? =
        (foreignFrom (foreignMarkers .scriptLocal) .script false f.cursor).map
          fun (pos, marker) => (Remark.foreignSyntax marker .scriptLocal).found pos := by
      intro f hf
      unfold Fragment.remark? Fragment.foreignSyntax
      rw [hf]
      rfl
    rw [hremark u hlocal, htiles, List.map_findSome?, ← List.head?_filterMap]
    refine congrArg List.head? (List.filterMap_congr fun f hf => ?_)
    have hcontext : f.context = .scriptLocal :=
      (congrArg Frame.context (kin_work hu' hf).1).symm.trans hlocal
    exact hremark f hcontext
  · rw [work_of_not fun hcut => hlocal hcut.1]
    have hsame : u.classify.unnumbered.remark? = u.remark? := u.remark?_classify
    cases h : u.remark? with
    | none => simp [hsame, h]
    | some w => simp [hsame, h]

/-- The foreign syntax noted within a fragment. -/
def foreignIn (s : Scan) (f : Fragment) : List ScanWarning :=
  s.log.warnings.filter fun w => w.kind = .foreignSyntax && f.start.offset ≤ w.position.offset &&
    w.position.offset < f.stop.offset

/-- What is noted in blocks outside a stretch does not lie within it. -/
theorem filter_remarks_eq_nil {us : List Fragment} {remarks : Fragment → List ScanWarning}
    {a b : Nat}
    (hbounds : ∀ v ∈ us, ∀ w ∈ remarks v, w.kind = .foreignSyntax ∧
      v.start.offset ≤ w.position.offset ∧ w.position.offset < v.stop.offset)
    (houtside : ∀ v ∈ us, v.stop.offset ≤ a ∨ b ≤ v.start.offset) :
    (us.flatMap remarks).filter (fun w => w.kind = .foreignSyntax && a ≤ w.position.offset &&
      w.position.offset < b) = [] := by
  rw [List.filter_eq_nil_iff]
  intro w hw
  obtain ⟨v, hv, hw⟩ := List.mem_flatMap.1 hw
  have hin := hbounds v hv w hw
  have hout := houtside v hv
  simp only [Bool.and_eq_true, decide_eq_true_eq]
  omega

/-- What is noted in the parts of a block lies within the block. -/
theorem remark?_bounds_work {u : Fragment} (hu : u ∈ blocks options text) {w : ScanWarning}
    (hw : w ∈ (work options.unmerged u).filterMap Fragment.remark?) : w.kind = .foreignSyntax ∧
      u.start.offset ≤ w.position.offset ∧ w.position.offset < u.stop.offset := by
  obtain ⟨P, htiles⟩ := work_tiles (mem_blocks_unmerged hu)
  exact htiles.remark?_bounds hw

/-- The foreign syntax noted within a block is that of its parts. -/
theorem foreignIn_eq {u f : Fragment} (hu : u ∈ blocks options text) (hstart : f.start = u.start)
    (hstop : f.stop = u.stop) :
    (ofText options text).foreignIn f = (work options.unmerged u).filterMap Fragment.remark? := by
  have hquiet : (outlineLog options text).warnings.filter (fun w => w.kind = .foreignSyntax &&
      u.start.offset ≤ w.position.offset && w.position.offset < u.stop.offset) = [] := by
    rw [List.filter_eq_nil_iff]
    intro w hw
    simp [outlineLog_quiet options text w hw]
  have hbounds : ∀ v ∈ blocks options text, ∀ w ∈ (work options.unmerged v).filterMap
      Fragment.remark?, w.kind = .foreignSyntax ∧ v.start.offset ≤ w.position.offset ∧
        w.position.offset < v.stop.offset := fun v hv w => remark?_bounds_work hv
  obtain ⟨e, -, htiles⟩ := blocks_tiles options text
  obtain ⟨us, vs, hsplit⟩ := List.append_of_mem hu
  rw [foreignIn, (log_eq options text).2, List.filter_append, hstart, hstop, hquiet,
    List.nil_append]
  rw [hsplit] at htiles hbounds ⊢
  obtain ⟨a, hbefore, hrest⟩ := htiles.of_append
  cases hrest with
  | @cons _ b _ _ _ covers _ hbehind =>
    have hfrom : u.start.offset = a.offset := by rw [covers.start]
    have hto : u.stop.offset = b.offset := by rw [covers.stop]
    rw [List.flatMap_append, List.flatMap_cons, List.filter_append, List.filter_append,
      filter_remarks_eq_nil (fun v hv => hbounds v (List.mem_append_left _ hv))
        fun v hv => .inl (hfrom ▸ (hbefore.bounds hv).2.2),
      filter_remarks_eq_nil
        (fun v hv => hbounds v (List.mem_append_right _ (List.mem_cons_of_mem u hv)))
        fun v hv => .inr (hto ▸ (hbehind.bounds hv).1),
      List.nil_append, List.append_nil, List.filter_eq_self]
    intro w hw
    have hin := hbounds u (List.mem_append_right _ List.mem_cons_self) w hw
    simp only [Bool.and_eq_true, decide_eq_true_eq]
    exact ⟨⟨hin.1, hin.2.1⟩, hin.2.2⟩

end Scan

end Polyglot
