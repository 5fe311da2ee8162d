-- SUMMARY: The fragments of a scan partition the document, and embedded blocks are balanced.
import Polyglot.Proofs.Splitting
import Polyglot.Text.Passage

/-!
# The fragments of a scan

`Scan.blocks` are the fragments of the structural pass while local scripts are kept
whole. A scan works on each of them for itself: it is cut into its pieces, and the
pieces are assembled again (`Scan.fragments_eq`). So what holds of the blocks and of
the cuts in a script holds of the fragments of every scan: they partition the
document, and outside the template language each of them is balanced on its own.
-/

namespace Polyglot

/-- The same options, without merging. -/
def Options.unmerged (options : Options) : Options := { options with aggregate := false }

/-- The same options, with boundaries judged in another window and merging on or off. -/
def Options.merging (options : Options) (stitchWindow : Nat) (aggregate : Bool) : Options :=
  { options with stitchWindow := stitchWindow, aggregate := aggregate }

/-- The structural pass neither stitches nor merges. -/
theorem Outline.walk_merging (options : Options) (stitchWindow : Nat) (aggregate : Bool)
    (o : Outline) (c : Cursor) :
    walk (options.merging stitchWindow aggregate) o c = walk options o c := by
  have hstep : ∀ (o : Outline) (c : Cursor),
      o.step (options.merging stitchWindow aggregate) c = o.step options c := fun _ _ => rfl
  fun_induction walk options o c with
  | case1 o c o' next h ih =>
    rw [walk.eq_def (options.merging _ _), hstep, h]
    exact ih
  | case2 o c o' h => rw [walk.eq_def (options.merging _ _), hstep, h]

theorem Outline.walk_unmerged (options : Options) (o : Outline) (c : Cursor) :
    walk options.unmerged o c = walk options o c :=
  walk_merging options options.stitchWindow false o c

namespace Scan

variable {options : Options} {text : List Char}

/-! ## Block by block -/

/-- The fragments of the structural pass, with local scripts kept whole. -/
def blocks (options : Options) (text : List Char) : List Fragment :=
  (Outline.ofText options.unsplit text (encodingRemarks text .empty)).fragments

/-- What becomes of a block. -/
def work (options : Options) (u : Fragment) : List Fragment :=
  Fragment.assemble options (u.pieces options)

theorem blocks_finished (options : Options) (text : List Char) :
    Outline.Finished ⟨.start, text⟩
      (Outline.ofText options.unsplit text (encodingRemarks text .empty)) :=
  Outline.finished_ofText rfl text _

theorem blocks_tiles (options : Options) (text : List Char) :
    ∃ e, e.rest = [] ∧ Fragment.Tiles (fun _ => True) ⟨.start, text⟩ (blocks options text) e := by
  obtain ⟨e, bound, hend, hemitted⟩ := blocks_finished options text
  exact ⟨e, hend, hemitted.tiles⟩

theorem blocks_apart (options : Options) (text : List Char) :
    (blocks options text).IsChain Fragment.Apart := by
  obtain ⟨e, bound, hend, hemitted⟩ := blocks_finished options text
  exact hemitted.apart

theorem blocks_sound {u : Fragment} (hu : u ∈ blocks options text) : u.IsSound := by
  obtain ⟨e, bound, hend, hemitted⟩ := blocks_finished options text
  exact hemitted.sound u (List.mem_reverse.1 hu)

/-- Where a block lies, and that there is text in it. -/
theorem blocks_covers {u : Fragment} (hu : u ∈ blocks options text) :
    u.content ≠ [] ∧ u.stop = u.start.advanceOver u.content := by
  obtain ⟨e, -, htiles⟩ := blocks_tiles options text
  obtain ⟨a, b, hcovers, -⟩ := htiles.exists_covers hu
  exact ⟨hcovers.text, by rw [hcovers.start, hcovers.stop, hcovers.read.2]⟩

/-- A local script is the body of a block. -/
theorem isBody_of_scriptLocal {u : Fragment} (hu : u ∈ blocks options text)
    (hcontext : u.context = .scriptLocal) : u.degraded = false ∧ u.IsBody := by
  have hsound := blocks_sound hu
  have hdegraded : u.degraded = false := by
    cases h : u.degraded with
    | false => rfl
    | true =>
      have := hsound.raw h
      rw [hcontext] at this
      cases this
  refine ⟨hdegraded, hsound.body ?_ hdegraded⟩
  rw [hcontext]
  decide

/-- The statements of a local script tile it, and they stop at cuts. -/
theorem statements_tiles {u : Fragment} (hu : u ∈ blocks options text)
    (hcontext : u.context = .scriptLocal) :
    Fragment.Tiles u.cursor.IsCut u.cursor u.statements ⟨u.stop, []⟩ := by
  obtain ⟨-, code, hread, hmatch⟩ := isBody_of_scriptLocal hu hcontext
  rw [hcontext] at hread
  exact Fragment.tiles_statements hread rfl hmatch

theorem kin_part? {u f : Fragment} {c d : Cursor} (h : u.part? c d = some f) : u.Kin f := by
  unfold Fragment.part? at h
  split at h
  · cases h
  · cases h
    exact ⟨rfl, rfl⟩

/-- The pieces of the blocks are of their frames. -/
theorem blocks_division (options : Options) (text : List Char) :
    Fragment.IsDivision (Fragment.pieces options) (blocks options text) := by
  refine ⟨fun u hu => ?_, fun u hu f hf => ?_⟩
  · by_cases hcut : u.context = .scriptLocal ∧ options.splitStatements
    · have hpieces : u.pieces options = u.statements := if_pos (by simpa using hcut)
      rw [hpieces]
      intro hnil
      have hread := (statements_tiles hu hcut.1).consumes
      rw [hnil] at hread
      exact (blocks_covers hu).1 hread.1
    · rw [Outline.pieces_of_not hcut]
      exact List.cons_ne_nil _ _
  · by_cases hcut : u.context = .scriptLocal ∧ options.splitStatements
    · have hpieces : u.pieces options = u.statements := if_pos (by simpa using hcut)
      rw [hpieces] at hf
      obtain ⟨⟨c, d⟩, -, hpart⟩ := List.mem_filterMap.1 hf
      exact kin_part? hpart
    · rw [Outline.pieces_of_not hcut, List.mem_singleton] at hf
      subst hf
      exact ⟨rfl, rfl⟩

/-- A scan works on each block for itself. -/
theorem fragments_eq (options : Options) (text : List Char) :
    (ofText options text).fragments.map Fragment.unnumbered =
      (blocks options text).flatMap (work options) := by
  rw [fragments_unnumbered, ← Fragment.assemble_unnumbered,
    (Outline.mirrors_ofText options text _).emitted]
  exact Fragment.assemble_flatMap (blocks_apart options text) (blocks_division options text) options

/-- Each fragment of a scan comes from a block. -/
theorem exists_block {f : Fragment} (hf : f ∈ (ofText options text).fragments) :
    ∃ u ∈ blocks options text, f.unnumbered ∈ work options u := by
  refine List.mem_flatMap.1 ?_
  rw [← fragments_eq]
  exact List.mem_map_of_mem hf

theorem eq_ofText {scan : Scan} (h : ofText? options text = .ok scan) :
    scan = ofText options text := by
  unfold ofText? at h
  split at h
  · cases h
  · split at h
    · cases h
    · exact (Except.ok.inj h).symm

/-! ## What becomes of a block -/

theorem kin_work {u f : Fragment} (hu : u ∈ blocks options text) (hf : f ∈ work options u) :
    u.Kin f :=
  Fragment.kin_assemble options ((blocks_division options text).kin u hu) f hf

/-- A block that is not cut into statements is only classified. -/
theorem work_of_not {u : Fragment}
    (h : ¬ (u.context = .scriptLocal ∧ options.splitStatements)) :
    work options u = [u.classify.unnumbered] := by
  rw [work, Outline.pieces_of_not h, Fragment.assemble_singleton, Fragment.classify_unnumbered]
  rfl

/-- Outside of local scripts a fragment is its block, classified. -/
theorem exists_block_classify {f : Fragment} (hf : f ∈ (ofText options text).fragments)
    (h : f.context ≠ .scriptLocal) : ∃ u ∈ blocks options text, u.context = f.context ∧
      f.unnumbered = u.classify.unnumbered := by
  obtain ⟨u, hu, hwork⟩ := exists_block hf
  have hsame : u.context = f.context := congrArg Frame.context (kin_work hu hwork).1
  rw [work_of_not fun hcut => h (hsame.symm.trans hcut.1), List.mem_singleton] at hwork
  exact ⟨u, hu, hsame, hwork⟩

theorem work_of_cut {u : Fragment} (h : u.context = .scriptLocal ∧ options.splitStatements) :
    work options u = Fragment.assemble options u.statements := by
  have hpieces : u.pieces options = u.statements := if_pos (by simpa using h)
  rw [work, hpieces]

theorem covers_cursor {u : Fragment} (hu : u ∈ blocks options text) :
    u.Covers u.cursor ⟨u.stop, []⟩ := by
  obtain ⟨htext, hstop⟩ := blocks_covers hu
  exact ⟨rfl, rfl, ⟨(List.append_nil _).symm, hstop⟩, htext⟩

/-- A block that is not cut tiles itself. -/
theorem work_whole {P : Cursor → Prop} {u : Fragment} (hu : u ∈ blocks options text)
    (h : ¬ (u.context = .scriptLocal ∧ options.splitStatements)) (hstop : P ⟨u.stop, []⟩) :
    Fragment.Tiles P u.cursor (work options u) ⟨u.stop, []⟩ := by
  rw [work_of_not h]
  exact .cons (Fragment.covers_unnumbered.2 (Fragment.covers_classify (covers_cursor hu))) hstop
    (.nil _)

/-- What becomes of a local script tiles it, and the script is divided at cuts. -/
theorem work_cuts {u : Fragment} (hu : u ∈ blocks options text) (h : u.context = .scriptLocal) :
    Fragment.Tiles u.cursor.IsCut u.cursor (work options u) ⟨u.stop, []⟩ := by
  by_cases hcut : u.context = .scriptLocal ∧ options.splitStatements
  · rw [work_of_cut hcut]
    exact Fragment.tiles_assemble options (statements_tiles hu h)
      fun hb ha hf hg => Fragment.divided_of_isCut hb ha hf hg options.stitchWindow
  · obtain ⟨-, code, hread, hmatch⟩ := isBody_of_scriptLocal hu h
    rw [h] at hread
    exact work_whole hu hcut ⟨⟨code, hread, hmatch.settled⟩, .inl rfl⟩

/-- What becomes of a block tiles it. -/
theorem work_tiles {u : Fragment} (hu : u ∈ blocks options text) :
    ∃ P, Fragment.Tiles P u.cursor (work options u) ⟨u.stop, []⟩ := by
  by_cases h : u.context = .scriptLocal
  · exact ⟨_, work_cuts hu h⟩
  · exact ⟨fun _ => True, work_whole hu (fun hcut => h hcut.1) trivial⟩

theorem work_ne_nil {u : Fragment} (hu : u ∈ blocks options text) : work options u ≠ [] := by
  obtain ⟨P, htiles⟩ := work_tiles hu
  intro hnil
  rw [hnil] at htiles
  exact (blocks_covers hu).1 htiles.consumes.1

/-! ## Before merging -/

theorem blocks_unmerged (options : Options) (text : List Char) :
    blocks options.unmerged text = blocks options text := by
  have hwalk := Outline.walk_unmerged options.unsplit
  unfold blocks Outline.ofText
  exact congrArg Outline.fragments (hwalk _ _)

theorem mem_blocks_unmerged {u : Fragment} (hu : u ∈ blocks options text) :
    u ∈ blocks options.unmerged text := by
  rwa [blocks_unmerged]

/-- A fragment of a block is a run of its parts. -/
theorem exists_run {u f : Fragment} (hf : f ∈ work options u) :
    ∃ before run behind, work options.unmerged u = before ++ run ++ behind ∧
      Fragment.joined? run = some f := by
  have hparts : work options.unmerged u =
      ((Fragment.stitchAll options.stitchWindow (u.pieces options)).map Fragment.classify).map
        Fragment.unnumbered := rfl
  rw [hparts]
  unfold work Fragment.assemble at hf
  generalize (Fragment.stitchAll options.stitchWindow (u.pieces options)).map Fragment.classify = fs
    at hf ⊢
  cases haggregate : options.aggregate with
  | false =>
    simp only [haggregate, Bool.false_eq_true, if_false] at hf
    obtain ⟨before, behind, hsplit⟩ := List.append_of_mem hf
    refine ⟨before, [f], behind, by simp [hsplit], ?_⟩
    obtain ⟨g, -, rfl⟩ := List.mem_map.1 hf
    exact Fragment.joined?_singleton _
  | true =>
    simp only [haggregate, if_true] at hf
    obtain ⟨run, hrun, hjoined⟩ := List.mem_filterMap.1 hf
    obtain ⟨before, behind, hsplit⟩ := List.append_of_mem hrun
    refine ⟨before.flatten.map Fragment.unnumbered, run.map Fragment.unnumbered,
      behind.flatten.map Fragment.unnumbered, ?_, ?_⟩
    · rw [← List.map_append, ← List.map_append, ← List.flatten_splitBy Fragment.mergeable fs,
        hsplit]
      simp
    · rw [Fragment.joined?_unnumbered, hjoined]

theorem classify_scriptLocal {f : Fragment} (h : f.context = .scriptLocal) :
    f.classify.features = (FeatureScan.ofCursor f.cursor).features ∧
      f.classify.literals = (FeatureScan.ofCursor f.cursor).literals ∧
      f.classify.cursor = f.cursor := by
  unfold Fragment.classify
  rw [h]
  exact ⟨rfl, rfl, rfl⟩

/-- The parts of a local script are classified by their own texts. -/
theorem work_unmerged {u g : Fragment} (hu : u ∈ blocks options text)
    (hcontext : u.context = .scriptLocal) (hg : g ∈ work options.unmerged u) :
    g.features = (FeatureScan.ofCursor g.cursor).features ∧
      g.literals = (FeatureScan.ofCursor g.cursor).literals := by
  obtain ⟨x, hx, rfl⟩ := List.mem_map.1 hg
  obtain ⟨y, hy, rfl⟩ := List.mem_map.1 hx
  have hkin : u.Kin y := Fragment.kin_stitchAll ((blocks_division options text).kin u hu) y hy
  have hlocal : y.context = .scriptLocal := (congrArg Frame.context hkin.1).symm.trans hcontext
  obtain ⟨hfeatures, hliterals, hcursor⟩ := classify_scriptLocal hlocal
  have hsame : y.classify.unnumbered.cursor = y.cursor := hcursor
  rw [hsame]
  exact ⟨hfeatures, hliterals⟩

/-! ## The document is partitioned -/

theorem fragments_tiles (options : Options) (text : List Char) :
    ∃ e, e.rest = [] ∧
      Fragment.Tiles (fun _ => True) ⟨.start, text⟩ (ofText options text).fragments e := by
  obtain ⟨e, hend, htiles⟩ := blocks_tiles options text
  have hwork := htiles.flatMap fun u hu => work_tiles hu
  rw [← fragments_eq] at hwork
  exact ⟨e, hend, hwork.of_map Fragment.unnumbered fun _ _ _ => Fragment.covers_unnumbered.1⟩

/-- No document within the limit is too large. -/
theorem isOversized_eq_false (h : byteLength text ≤ EncodingIssue.sizeLimit) :
    EncodingIssue.isOversized text = false := by
  have hnulls : ∀ (text : List Char) (pos : Position) (found : List EncodingIssue),
      (∀ issue ∈ found, issue.kind = .nullCharacter) →
      ∀ issue ∈ EncodingIssue.nullsFrom pos text found, issue.kind = .nullCharacter := by
    intro text
    induction text with
    | nil =>
      intro pos found hfound issue hissue
      exact hfound issue (List.mem_reverse.1 hissue)
    | cons ch text ih =>
      intro pos found hfound
      apply ih
      split
      · intro issue hissue
        rcases List.mem_cons.1 hissue with rfl | hissue
        · rfl
        · exact hfound issue hissue
      · exact hfound
  have hmem := hnulls text .start [] (by simp)
  rw [EncodingIssue.isOversized, EncodingIssue.all, if_neg (Nat.not_lt_of_le h), List.any_eq_false]
  intro issue hissue
  rcases List.mem_append.1 hissue with hmark | hnull
  · split at hmark
    · rw [List.mem_singleton.1 hmark]
      simp
    · cases hmark
  · simp [hmem issue hnull]

/-- No document that has text and is not too large is refused. -/
theorem ofText?_eq_ok (options : Options) (htext : text ≠ [])
    (hsize : byteLength text ≤ EncodingIssue.sizeLimit) :
    ofText? options text = .ok (ofText options text) := by
  simp [ofText?, htext, isOversized_eq_false hsize]

/-- Outside the template language every fragment of a scan is balanced on its own,
unless error recovery made it. -/
theorem balanced_fragments {options : Options} {text : List Char} {scan : Scan}
    (h : ofText? options text = .ok scan) :
    ∀ f ∈ scan.fragments, f.degraded = false → f.context.isTemplate = false →
      BraceBalanced f.context.guardSet f.content := by
  obtain rfl := eq_ofText h
  intro f hf hdegraded hcontext
  obtain ⟨u, hu, hwork⟩ := exists_block hf
  have hkin := kin_work hu hwork
  have hsame : u.context = f.context := congrArg Frame.context hkin.1
  rw [← hsame] at hcontext ⊢
  have hgen := Context.generatorComments_of_not_isTemplate (by simpa using hcontext)
  obtain ⟨code, hread, hmatch⟩ := (blocks_sound hu).body (by simpa using hcontext)
    (hkin.2.trans hdegraded)
  by_cases hscript : u.context = .scriptLocal
  · obtain ⟨a, b, hcovers, hstart, hstop, -, hend⟩ := (work_cuts hu hscript).exists_covers hwork
    rw [hscript] at hread hgen ⊢
    obtain ⟨part, hpart, hmatch'⟩ :=
      Cursor.IsCut.between hread hmatch hstart hstop ⟨_, hcovers.read⟩ hend
    exact hpart.balanced hgen hcovers.read hmatch'
  · rw [work_of_not fun hcut => hscript hcut.1, List.mem_singleton] at hwork
    have hcovers := Fragment.covers_unnumbered.2 (Fragment.covers_classify (covers_cursor hu))
    rw [← hwork] at hcovers
    exact hread.balanced hgen hcovers.read hmatch

/-- A document in which a statement of a script is such a fragment. -/
theorem balanced_fragments_script : ∃ scan, ∃ f ∈ scan.fragments,
    ofText? .standard "script \x7b a(\x7b;\x7d); b = '\x7d' \x7d".toList = .ok scan ∧
    f.degraded = false ∧ f.context.isTemplate = false ∧
      BraceBalanced f.context.guardSet f.content := by
  let text := "script \x7b a(\x7b;\x7d); b = '\x7d' \x7d".toList
  have hscan : ofText? .standard text = .ok (ofText .standard text) :=
    ofText?_eq_ok .standard (by decide) (by decide)
  have hmem : ∃ f ∈ (ofText .standard text).fragments,
      f.degraded = false ∧ f.context.isTemplate = false := by decide +kernel
  obtain ⟨f, hf, hdegraded, hcontext⟩ := hmem
  exact ⟨_, f, hf, hscan, hdegraded, hcontext,
    balanced_fragments hscan f hf hdegraded hcontext⟩

end Scan

end Polyglot
