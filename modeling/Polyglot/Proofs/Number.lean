-- SUMMARY: No number is given out twice in a scan, to a fragment or to a unit.
import Polyglot.Proofs.Unit

/-!
# Numbers

The structural pass numbers its fragments in the order it emits them
(`Outline.Numbered`). Stitching drops numbers and gives none out; a merged run gets the
next free one. Units take the interval of numbers above those given out
(`Scan.ids_takeUnits`). So all that was ever numbered in a scan is told apart by its
number, however often units are taken (`Scan.isNumbered_calls`).
-/

namespace Polyglot

/-! ## The structural pass -/

namespace Outline

variable {options : Options} {o : Outline} {c : Cursor}

/-- The fragments emitted so far bear the numbers given out so far, in order. -/
def Numbered (o : Outline) : Prop := o.emitted.map Fragment.id = (List.range o.issued).reverse

theorem Numbered.emit (h : o.Numbered) (frame : Frame) (degraded : Bool) (c d : Cursor) :
    (o.emit frame degraded c d).Numbered := by
  unfold Outline.emit
  split
  · exact h
  · rw [Numbered, List.map_cons, h, List.range_succ, List.reverse_concat]

theorem Numbered.emitBody (h : o.Numbered) (frame : Frame) (body : Cursor) (text : List Char) :
    (Outline.emitBody options o frame body text).Numbered := by
  unfold Outline.emitBody
  simp only
  generalize Cursor.stretches _ _ = stretches
  induction stretches generalizing o with
  | nil => exact h
  | cons stretch stretches ih => exact ih (h.emit frame false _ _)

theorem Numbered.changeStack (h : o.Numbered) (c : Cursor) (stack : Stack) :
    (o.changeStack c stack).Numbered := by
  by_cases hcontext : stack.current = o.run.context
  · rw [changeStack_of_eq o c hcontext]
    exact h
  · rw [changeStack_of_ne o c hcontext]
    exact h.emit o.run false o.mark c

theorem Numbered.beforeCode (h : o.Numbered) (isBrace : Bool) (c : Cursor) :
    (o.beforeCode isBrace c).Numbered := by
  obtain ⟨-, hbefore⟩ | ⟨-, hbefore⟩ := o.beforeCode_cases isBrace c
  · rw [hbefore]
    exact h.changeStack c _
  · rw [hbefore]
    exact h

theorem Numbered.openOrigin (h : o.Numbered) (c brace : Cursor) :
    (o.openOrigin c brace).Numbered :=
  Numbered.changeStack (o := { o with head := .other }) h c _

theorem Numbered.closeBrace (h : o.Numbered) (c : Cursor) (after : c.Later) :
    (o.closeBrace c after).Numbered := by
  have hclosed := h.changeStack after.cursor o.stack.closeBrace.2
  unfold Outline.closeBrace
  simp only
  split <;> exact hclosed

theorem Numbered.finish (h : o.Numbered) (c : Cursor) : (o.finish c).Numbered := by
  have hrun := h.emit o.run false o.mark c
  unfold Outline.finish
  simp only
  split <;> exact hrun

/-- The state after a step is numbered. -/
abbrev Flow.Numbered (flow : Flow c) : Prop :=
  flow.Meets (fun o _ => o.Numbered) Outline.Numbered

theorem EmbedsBy.numbered {context : Context} {found : Except Unbalanced c.Later}
    {flow : Flow c} (hflow : EmbedsBy options o context c found flow) (h : o.Numbered) :
    flow.Numbered := by
  cases hflow with
  | @unclosed unbalanced unmatched =>
    obtain ⟨log, hissue⟩ := o.elim_guardIssue unbalanced.issue
    rw [hissue]
    have hrun : (({ o with log := log } : Outline).emitRun c.advance.skipBlank).Numbered :=
      Numbered.emit (o := { o with log := log }) h o.run false o.mark c.advance.skipBlank
    exact Numbered.emit
      (o := Outline.fault _ (.unclosedBlock context unbalanced.depth) c) hrun _ true _ _
  | blank closed blank => exact h
  | body closed trimmed nonempty =>
    exact Numbered.emitBody (h.emit o.run false o.mark c.advance.skipBlank) _ _ _

theorem Acts.numbered {signs : List Sign} {flow : Flow c} (hflow : Acts options o c signs flow)
    (h : o.Numbered) : flow.Numbered := by
  cases hflow with
  | pass next begins => exact h
  | openBody after brace opened => exact h
  | openElement after brace noHeader kind => exact h.changeStack after.cursor _
  | closeBrace after brace => exact h.closeBrace c after
  | semicolon after => exact h.changeStack after.cursor _
  | header next start declared =>
    exact Numbered.changeStack (o := { o with head := .other }) h c _
  | block after keyword brace embeds => exact EmbedsBy.numbered embeds h
  | originStop brace start isRaw isBrace embeds =>
    exact EmbedsBy.numbered (c := brace.cursor) embeds (h.openOrigin c brace.cursor)
  | @origin raw o' brace next start isRaw isBrace embeds =>
    have hread : o'.Numbered :=
      EmbedsBy.numbered (c := brace.cursor) embeds (h.openOrigin c brace.cursor)
    exact hread.changeStack next.cursor _

theorem Steps.numbered {signs : List Sign} {flow : Flow c} (hflow : Steps options o c signs flow)
    (h : o.Numbered) : flow.Numbered := by
  cases hflow with
  | finish atEnd => exact h.finish c
  | gap next => exact h
  | openComment atEnd comment ahead => exact h
  | openString atEnd string ahead => exact h.beforeCode false c
  | code acts => exact acts.numbered (h.beforeCode _ c)

/-- The structural pass numbers what it emits from zero on. -/
theorem numbered_ofText (options : Options) (text : List Char) (log : Log) :
    (ofText options text log).Numbered :=
  ofText_meets (I := fun o _ _ => o.Numbered) (F := fun o _ => o.Numbered)
    (fun h hflow => hflow.numbered h) fun _ _ => rfl

end Outline

/-! ## Numbers in use -/

/-- The numbers are told apart, and each was given out before `issued`. -/
structure Distinct (issued : Nat) (ids : List FragmentId) : Prop where
  nodup : ids.Nodup
  below : ∀ id ∈ ids, id < issued

namespace Distinct

variable {issued : Nat} {ids ids' : List FragmentId}

theorem sublist (h : Distinct issued ids) (hsub : ids'.Sublist ids) : Distinct issued ids' :=
  ⟨h.nodup.sublist hsub, fun id hid => h.below id (hsub.subset hid)⟩

theorem perm (h : Distinct issued ids) (hperm : ids'.Perm ids) : Distinct issued ids' :=
  ⟨hperm.nodup_iff.2 h.nodup, fun id hid => h.below id (hperm.subset hid)⟩

/-- The numbers from `issued` up are free. -/
theorem append_range' (h : Distinct issued ids) (n : Nat) :
    Distinct (issued + n) (ids ++ List.range' issued n) := by
  refine ⟨List.nodup_append.2 ⟨h.nodup, List.nodup_range', fun id hid fresh hfresh => ?_⟩,
    fun id hid => ?_⟩
  · exact Nat.ne_of_lt (Nat.lt_of_lt_of_le (h.below id hid) (List.mem_range'_1.1 hfresh).1)
  · rcases List.mem_append.1 hid with hid | hid
    · exact Nat.lt_add_right n (h.below id hid)
    · exact (List.mem_range'_1.1 hid).2

end Distinct

namespace Fragment

/-! ## Stitching and merging -/

theorem id_classify (f : Fragment) : f.classify.id = f.id := by
  unfold classify
  split <;> rfl

/-- To decide on a boundary keeps the numbers, or drops the second one. -/
theorem ids_stitch (window : Nat) (f g : Fragment) : (f.stitch window g).1.id = f.id ∧
    ∀ g' ∈ (f.stitch window g).2, g'.id = g.id := by
  unfold stitch
  split
  · split <;> simp [merge, shift]
  · simp

theorem ids_stitchNext (window : Nat) (done : List Fragment) (g : Fragment) :
    ((stitchNext window done g).map id).Sublist (g.id :: done.map id) := by
  cases done with
  | nil => exact List.Sublist.refl _
  | cons f done =>
    obtain ⟨hf, hg⟩ := ids_stitch window f g
    rw [stitchNext]
    rcases hstitch : f.stitch window g with ⟨f', _ | g'⟩
    · rw [hstitch] at hf
      simp [show f'.id = f.id from hf]
    · rw [hstitch] at hf hg
      simp [show f'.id = f.id from hf, hg g' rfl]

/-- Stitching drops numbers and gives none out. -/
theorem ids_stitchAll (window : Nat) (fs : List Fragment) :
    ((stitchAll window fs).map id).Sublist (fs.map id) := by
  suffices ∀ done : List Fragment, ((fs.foldl (stitchNext window) done).map id).Sublist
      ((fs.map id).reverse ++ done.map id) by
    have := (this []).reverse
    simpa [stitchAll] using this
  induction fs with
  | nil => exact fun done => List.Sublist.refl _
  | cons g fs ih =>
    intro done
    refine (ih _).trans ?_
    rw [List.map_cons, List.reverse_cons, List.append_assoc]
    exact (ids_stitchNext window done g).append_left _

/-- What becomes of a run keeps its number or takes the next free one. -/
theorem distinct_addRun {done : List Fragment} {issued : Nat} {run more : List Fragment}
    (h : Distinct issued ((done ++ (run ++ more)).map id)) :
    Distinct (addRun (done, issued) run).2 (((addRun (done, issued) run).1 ++ more).map id) := by
  match run with
  | [] => exact h
  | [f] => exact h.perm (List.perm_middle.symm.map id)
  | f :: g :: rest =>
    -- the numbers of the run are dropped, and the fresh one goes to the front
    have hdropped : ((done ++ more).map id).Sublist ((done ++ (f :: g :: rest ++ more)).map id) :=
      ((List.sublist_append_right (f :: g :: rest) more).append_left done).map id
    refine ((h.sublist hdropped).append_range' 1).perm ?_
    simpa [addRun, mergeRun] using List.perm_append_singleton issued ((done ++ more).map id) |>.symm

/-- To merge runs keeps the numbers apart. -/
theorem distinct_aggregate {issued : Nat} {fs : List Fragment} (h : Distinct issued (fs.map id)) :
    Distinct (aggregate issued fs).2 ((aggregate issued fs).1.map id) := by
  -- what is done and the runs that remain are apart all along
  suffices ∀ (runs : List (List Fragment)) (done : List Fragment) (issued : Nat),
      Distinct issued ((done ++ runs.flatten).map id) →
      Distinct (runs.foldl addRun (done, issued)).2
        ((runs.foldl addRun (done, issued)).1.map id) by
    have hruns := this (fs.splitBy mergeable) [] issued
      (by rwa [List.nil_append, List.flatten_splitBy])
    exact hruns.perm ((List.reverse_perm _).map id)
  intro runs
  induction runs with
  | nil =>
    intro done issued hdone
    simpa using hdone
  | cons run runs ih =>
    intro done issued hdone
    exact ih _ _ (distinct_addRun hdone)

/-! ## Units -/

/-- How units are numbered changes nothing else. -/
theorem map_zipIdx_unnumbered (number : Fragment × Nat → Fragment)
    (h : ∀ u id, (number (u, id)).unnumbered = u.unnumbered) (issued : Nat)
    (units : List Fragment) :
    ((units.zipIdx issued).map number).map unnumbered = units.map unnumbered := by
  have hnumber : unnumbered ∘ number = unnumbered ∘ Prod.fst := funext fun p => h p.1 p.2
  rw [List.map_map, hnumber, ← List.map_map, List.zipIdx_map_fst]

theorem minimalUnits_unnumbered (issued : Nat) (f : Fragment) :
    (f.minimalUnits issued).map unnumbered = (f.minimalUnits 0).map unnumbered := by
  unfold minimalUnits
  rw [map_zipIdx_unnumbered _ (fun _ _ => rfl), map_zipIdx_unnumbered _ (fun _ _ => rfl)]

end Fragment

/-! ## The numbers of a scan -/

namespace Scan

variable {options : Options} {text : List Char} {scan : Scan}

/-- The fragments of a scan are told apart by their numbers. -/
theorem distinct_fragments (options : Options) (text : List Char) :
    Distinct (ofText options text).issued ((ofText options text).fragments.map Fragment.id) := by
  have hnumbered := Outline.numbered_ofText options text (encodingRemarks text .empty)
  unfold Scan.ofText
  generalize Outline.ofText options text (encodingRemarks text .empty) = outline at hnumbered ⊢
  have hids : outline.fragments.map Fragment.id = List.range outline.issued := by
    rw [Outline.fragments, List.map_reverse, hnumbered, List.reverse_reverse]
  have hemitted : Distinct outline.issued (outline.fragments.map Fragment.id) := by
    rw [hids]
    exact ⟨List.nodup_range, fun id => List.mem_range.1⟩
  have hstitched : Distinct outline.issued
      (((Fragment.stitchAll options.stitchWindow outline.fragments).map Fragment.classify).map
        Fragment.id) := by
    rw [List.map_map, show Fragment.id ∘ Fragment.classify = Fragment.id from
      funext Fragment.id_classify]
    exact hemitted.sublist (Fragment.ids_stitchAll _ _)
  cases options.aggregate with
  | true => exact Fragment.distinct_aggregate hstitched
  | false => exact hstitched

/-! ## Units -/

/-- Units take the numbers from those given out up, and to take them only counts them. -/
theorem takeUnits_spec (s : Scan) : ∃ units, s.takeUnits =
      (units, { s with issued := s.issued + units.length }) ∧
    units.map Fragment.id = List.range' s.issued units.length ∧
    units.map Fragment.unnumbered =
      s.fragments.flatMap fun f => (f.minimalUnits 0).map Fragment.unnumbered := by
  obtain ⟨parts, hunits, hids, hparts⟩ := foldl_addUnits s.fragments [] s.issued
  refine ⟨parts.flatten, ?_, hids, ?_⟩
  · rw [takeUnits, hunits]
    simp
  · clear hunits hids
    generalize s.fragments = fs at hparts ⊢
    induction hparts with
    | nil => rfl
    | cons hunits hparts ih =>
      obtain ⟨issued, rfl⟩ := hunits
      rw [List.flatten_cons, List.map_append, List.flatMap_cons, ih,
        Fragment.minimalUnits_unnumbered]

/-- The units of a scan tile the document, whatever numbers they bear. -/
theorem units_tiles (options : Options) (text : List Char) {units : List Fragment}
    (h : units.map Fragment.unnumbered = (ofText options text).fragments.flatMap fun f =>
      (f.minimalUnits 0).map Fragment.unnumbered) :
    ∃ e, e.rest = [] ∧ Fragment.Tiles (fun _ => True) ⟨.start, text⟩ units e := by
  obtain ⟨e, hend, htiles⟩ := fragments_tiles options text
  have hparts : ∀ f ∈ (ofText options text).fragments, ∃ Q, Fragment.Tiles Q f.cursor
      ((f.minimalUnits 0).map Fragment.unnumbered) ⟨f.stop, []⟩ := by
    intro f hf
    obtain ⟨a, b, hcovers, -⟩ := htiles.exists_covers hf
    rw [← hcovers.toEnd_eq]
    exact ⟨_, (Fragment.tiles_minimalUnits f 0).map Fragment.unnumbered
      fun _ _ _ => Fragment.covers_unnumbered.2⟩
  have hunits := htiles.flatMap hparts
  rw [← h] at hunits
  exact ⟨e, hend, hunits.of_map Fragment.unnumbered fun _ _ _ => Fragment.covers_unnumbered.1⟩

/-- The units of a scan stand in the document one behind the other. -/
theorem pairwise_units (options : Options) (text : List Char) {units : List Fragment}
    (h : units.map Fragment.unnumbered = (ofText options text).fragments.flatMap fun f =>
      (f.minimalUnits 0).map Fragment.unnumbered) :
    units.Pairwise fun u v => u.start.offset < v.start.offset := by
  obtain ⟨e, -, htiles⟩ := units_tiles options text h
  exact htiles.pairwise

/-- The scan after units were taken from it so many times. -/
def afterUnits (s : Scan) : Nat → Scan
  | 0 => s
  | n + 1 => (s.afterUnits n).takeUnits.2

/-- Numbers tell apart whatever is numbered in a scan: its fragments, and the units of every
time that units are taken, which bear the numbers that follow, in document order. -/
structure TellsApart (s : Scan) : Prop where
  fragments : Distinct s.issued (s.fragments.map Fragment.id)
  units : ∀ n, (s.afterUnits n).takeUnits.1.map Fragment.id =
    List.range' (s.afterUnits n).issued (s.afterUnits n).takeUnits.1.length
  issued : ∀ n, (s.afterUnits (n + 1)).issued =
    (s.afterUnits n).issued + (s.afterUnits n).takeUnits.1.length
  order : ∀ n, (s.afterUnits n).takeUnits.1.Pairwise fun u v => u.start.offset < v.start.offset
  all : ∀ n, Distinct (s.afterUnits n).issued
    ((s.fragments ++ (List.range n).flatMap fun i => (s.afterUnits i).takeUnits.1).map Fragment.id)

/-- To take units leaves the fragments alone. -/
theorem fragments_afterUnits (s : Scan) (n : Nat) : (s.afterUnits n).fragments = s.fragments := by
  induction n with
  | zero => rfl
  | succ n ih =>
    obtain ⟨units, htake, -⟩ := takeUnits_spec (s.afterUnits n)
    rw [afterUnits, htake]
    exact ih

/-- In every scan numbers tell apart the fragments and all units that are ever taken. -/
theorem tellsApart (h : ofText? options text = .ok scan) : scan.TellsApart := by
  obtain rfl := eq_ofText h
  have hfragments := distinct_fragments options text
  refine ⟨hfragments, fun n => ?_, fun n => ?_, fun n => ?_, fun n => ?_⟩
  · obtain ⟨units, htake, hids, -⟩ := takeUnits_spec ((ofText options text).afterUnits n)
    rw [htake]
    exact hids
  · obtain ⟨units, htake, -⟩ := takeUnits_spec ((ofText options text).afterUnits n)
    rw [afterUnits, htake]
  · obtain ⟨units, htake, -, hunits⟩ := takeUnits_spec ((ofText options text).afterUnits n)
    rw [fragments_afterUnits] at hunits
    rw [htake]
    exact pairwise_units options text hunits
  · -- each time, the numbers in use grow by the interval of those that follow
    induction n with
    | zero => simpa [afterUnits] using hfragments
    | succ n ih =>
      obtain ⟨units, htake, hids, -⟩ := takeUnits_spec ((ofText options text).afterUnits n)
      rw [List.range_succ, List.flatMap_append, ← List.append_assoc, List.map_append, afterUnits,
        List.flatMap_singleton, htake, hids]
      exact ih.append_range' units.length

/-- A document in which two statements are merged under a number of their own. -/
theorem tellsApart_script : ∃ scan,
    ofText? .standard "script \x7b a;\n b() \n \x7d\nx:y".toList = .ok scan ∧
    scan.fragments.map Fragment.id = [0, 4, 3] ∧ scan.issued = 5 ∧ scan.TellsApart := by
  let text := "script \x7b a;\n b() \n \x7d\nx:y".toList
  have hscan : ofText? .standard text = .ok (ofText .standard text) :=
    ofText?_eq_ok .standard (by decide) (by decide)
  exact ⟨_, hscan, by decide +kernel, by decide +kernel, tellsApart hscan⟩

end Scan

end Polyglot
