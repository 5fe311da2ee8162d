-- SUMMARY: The features of a local script are those of its own text, but for markers that were severed.
import Polyglot.Proofs.Dialect
import Polyglot.Proofs.Scan

/-!
# Features of local scripts

Local scripts are classified before neighbours are merged. What is merged has the
markers of its parts, and a word at the end of a part is no marker of that part even
where it would be one in the merged text. So the features of a fragment are those of
its own text exactly if it has every severed marker for some other reason
(`Scan.features_eq_iff`).
-/

namespace Polyglot

namespace Scan

variable {options : Options} {text : List Char}

/-- The fragments of the scan without merging that lie within a fragment. -/
def parts (options : Options) (text : List Char) (f : Fragment) : List Fragment :=
  (ofText options.unmerged text).fragments.filter fun g =>
    f.start.offset ≤ g.start.offset && g.start.offset < f.stop.offset

/-- The parts of a fragment are the run of its block that it was made of. -/
theorem exists_parts {f : Fragment} (hf : f ∈ (ofText options text).fragments) :
    ∃ u ∈ blocks options text, ∃ before run behind,
      work options.unmerged u = before ++ run ++ behind ∧
      Fragment.joined? run = some f.unnumbered ∧
      (parts options text f).map Fragment.unnumbered = run := by
  obtain ⟨u, hu, hwork⟩ := exists_block hf
  obtain ⟨before, run, behind, hsplit, hjoined⟩ := exists_run hwork
  refine ⟨u, hu, before, run, behind, hsplit, hjoined, ?_⟩
  -- the run in the fragments of the whole document
  obtain ⟨us, vs, hblocks⟩ := List.append_of_mem hu
  have hall : (ofText options.unmerged text).fragments.map Fragment.unnumbered =
      us.flatMap (work options.unmerged) ++ before ++ run ++
        (behind ++ vs.flatMap (work options.unmerged)) := by
    rw [fragments_eq, blocks_unmerged, hblocks, List.flatMap_append, List.flatMap_cons, hsplit]
    simp only [List.append_assoc]
  obtain ⟨e, -, htiles⟩ := fragments_tiles options.unmerged text
  have hwhole := htiles.map Fragment.unnumbered fun _ _ _ => Fragment.covers_unnumbered.2
  rw [hall] at hwhole
  obtain ⟨b, hupto, hbehind⟩ := hwhole.of_append
  obtain ⟨a, hbefore, hrun⟩ := hupto.of_append
  obtain ⟨hstart, hstop⟩ : f.start = a.position ∧ f.stop = b.position := by
    cases run with
    | nil => cases hjoined
    | cons g more =>
      have hcovers := (hrun.mergeRun 0).1
      rw [Option.some.inj hjoined] at hcovers
      exact ⟨hcovers.start, hcovers.stop⟩
  rw [← Fragment.Tiles.filter_between hbefore hrun hbehind, ← hall, List.filter_map]
  unfold parts
  rw [hstart, hstop]
  rfl

theorem joined?_features {run : List Fragment} {f : Fragment}
    (h : Fragment.joined? run = some f) (m : Marker) :
    f.features.has m ↔ ∃ g ∈ run, g.features.has m := by
  have hunion : ∀ (more : List Fragment) (features : Features),
      (more.foldl (fun features g => features.union g.features) features).has m ↔
        features.has m ∨ ∃ g ∈ more, g.features.has m := by
    intro more
    induction more with
    | nil => simp
    | cons g more ih =>
      intro features
      rw [List.foldl_cons, ih]
      simp [or_assoc]
  cases run with
  | nil => cases h
  | cons g more =>
    cases h
    rw [Fragment.mergeRun, hunion]
    simp

theorem severedAll_unnumbered (fs : List Fragment) :
    FeatureScan.severedAll (fs.map Fragment.unnumbered) = FeatureScan.severedAll fs := by
  have hcontent : Fragment.content ∘ Fragment.unnumbered = Fragment.content := rfl
  induction fs with
  | nil => rfl
  | cons f fs ih =>
    rw [List.map_cons, FeatureScan.severedAll, FeatureScan.severedAll, ih, List.map_map, hcontent]
    rfl

/-- A part of a local script between two cuts is a script of its own. -/
theorem script_of_run {u g : Fragment} {before more behind : List Fragment}
    (hu : u ∈ blocks options text) (hlocal : u.context = .scriptLocal)
    (hsplit : work options u = before ++ g :: more ++ behind) :
    ∃ code d, (g.mergeRun more 0).cursor.Passes .script code d ∧ BracesMatch code ∧ d.rest = [] ∧
      Fragment.Tiles (g.mergeRun more 0).cursor.IsCut (g.mergeRun more 0).cursor (g :: more) d := by
  obtain ⟨-, code, hread, hmatch⟩ := isBody_of_scriptLocal hu hlocal
  rw [hlocal] at hread
  have htiles := work_cuts hu hlocal
  rw [hsplit] at htiles
  obtain ⟨b, hupto, hbehind⟩ := htiles.of_append
  obtain ⟨a, hbefore, hrun⟩ := hupto.of_append
  have hend : b.Reaches ⟨u.stop, []⟩ := ⟨_, hbehind.consumes⟩
  obtain ⟨hcovers, hcut⟩ := hrun.mergeRun 0
  obtain ⟨part, hpart, hbraces⟩ :=
    Cursor.IsCut.between hread hmatch hbefore.cut hcut ⟨_, hcovers.read⟩ hend
  have halone := hrun.alone hread hmatch hbefore.cut hend hcovers.read
  have hbody := hpart.stands rfl hcovers.read.1 (.inl rfl) a.position
  rw [List.append_nil, ← hcovers.read.2] at hbody
  rw [← hcovers.start] at halone hbody
  exact ⟨part, _, hbody, hbraces, rfl, halone⟩

/-- The text of a local script has the markers of the fragment and the severed ones. -/
theorem has_ofCursor {f : Fragment} (hf : f ∈ (ofText options text).fragments)
    (hcontext : f.context = .scriptLocal) (m : Marker) :
    (FeatureScan.ofCursor f.cursor).features.has m ↔
      f.features.has m ∨ m ∈ FeatureScan.severedAll (parts options text f) := by
  obtain ⟨u, hu, before, run, behind, hsplit, hjoined, hparts⟩ := exists_parts hf
  cases run with
  | nil => cases hjoined
  | cons g more =>
    have hrun : ∀ x ∈ g :: more, x ∈ work options.unmerged u := by
      intro x hx
      rw [hsplit]
      exact List.mem_append_left _ (List.mem_append_right _ hx)
    have hu' := mem_blocks_unmerged hu
    have hf' : g.mergeRun more 0 = f.unnumbered := Option.some.inj hjoined
    have hlocal : u.context = .scriptLocal := by
      have hkin := kin_work hu' (hrun g List.mem_cons_self)
      have hframe : (g.mergeRun more 0).toFrame = f.unnumbered.toFrame := by rw [hf']
      exact (congrArg Frame.context (hkin.1.trans hframe)).trans hcontext
    obtain ⟨code, d, hread, hmatch, hend, htiles⟩ := script_of_run hu' hlocal hsplit
    obtain ⟨-, hfeatures⟩ := FeatureScan.ofCursor_tiles hread hmatch hend htiles
    have hcursor : (g.mergeRun more 0).cursor = f.unnumbered.cursor := by rw [hf']
    change (FeatureScan.ofCursor f.unnumbered.cursor).features.has m ↔ _
    have hhas := joined?_features hjoined m
    rw [← hcursor, hfeatures, ← severedAll_unnumbered (parts options text f), hparts]
    refine or_congr (Iff.trans ?_ hhas.symm) Iff.rfl
    -- each part was classified by its own text
    constructor
    · rintro ⟨x, hx, hm⟩
      exact ⟨x, hx, (work_unmerged hu' hlocal (hrun x hx)).1 ▸ hm⟩
    · rintro ⟨x, hx, hm⟩
      exact ⟨x, hx, (work_unmerged hu' hlocal (hrun x hx)).1 ▸ hm⟩

/-- Where scripts are not cut into statements, or statements are not merged, every local
script has the features of its own text. -/
theorem features_eq_of_whole (h : options.splitStatements = false ∨ options.aggregate = false)
    {f : Fragment} (hf : f ∈ (ofText options text).fragments)
    (hcontext : f.context = .scriptLocal) :
    f.features = (FeatureScan.ofCursor f.cursor).features := by
  obtain ⟨u, hu, hwork⟩ := exists_block hf
  have hlocal : u.context = .scriptLocal :=
    (congrArg Frame.context (kin_work hu hwork).1).trans hcontext
  change f.unnumbered.features = (FeatureScan.ofCursor f.unnumbered.cursor).features
  rcases h with hwhole | hmerge
  · rw [work_of_not (by simp [hwhole]), List.mem_singleton] at hwork
    obtain ⟨hfeatures, -, hcursor⟩ := classify_scriptLocal hlocal
    have hsame : u.classify.unnumbered.cursor = u.cursor := hcursor
    rw [hwork, hsame]
    exact hfeatures
  · have hsame : options.unmerged = options := by rw [Options.unmerged, ← hmerge]
    rw [← hsame] at hwork
    exact (work_unmerged hu hlocal hwork).1

/-- A local script has no marker that its own text does not have. It has the features of
its text exactly if it has every marker that was severed between its parts, and goes to
the compiler that its text calls for exactly if nothing was severed or it has a marker. -/
theorem features_eq_iff {options : Options} {text : List Char} {scan : Scan}
    (h : ofText? options text = .ok scan) :
    ∀ f ∈ scan.fragments, f.context = .scriptLocal →
      (∀ m, f.features.has m → (FeatureScan.ofCursor f.cursor).features.has m) ∧
      (f.features = (FeatureScan.ofCursor f.cursor).features ↔
        ∀ m ∈ FeatureScan.severedAll (parts options text f), f.features.has m) ∧
      (f.target = (if (FeatureScan.ofCursor f.cursor).features.isExtension then .scriptExtension
          else .script) ↔
        FeatureScan.severedAll (parts options text f) = [] ∨ f.features.isExtension) := by
  obtain rfl := eq_ofText h
  intro f hf hcontext
  have hhas := has_ofCursor hf hcontext
  refine ⟨fun m hm => (hhas m).2 (.inl hm), ⟨?_, ?_⟩, ?_⟩
  · intro heq m hm
    rw [heq]
    exact (hhas m).2 (.inr hm)
  · intro hsevered
    refine Features.ext_has fun m => Bool.eq_iff_iff.2 ((hhas m).trans ?_).symm
    exact or_iff_left_of_imp (hsevered m)
  · have htarget : f.target = if f.features.isExtension then .scriptExtension else .script := by
      unfold Fragment.target
      rw [hcontext]
    have hextension : (FeatureScan.ofCursor f.cursor).features.isExtension ↔
        f.features.isExtension ∨ FeatureScan.severedAll (parts options text f) ≠ [] := by
      rw [Features.isExtension_iff, Features.isExtension_iff, ne_eq,
        List.eq_nil_iff_forall_not_mem]
      simp only [hhas, exists_or, not_forall, not_not]
    rw [htarget]
    by_cases hf : f.features.isExtension
    · simp [hf, hextension.2 (.inl hf)]
    · by_cases hsevered : FeatureScan.severedAll (parts options text f) = []
      · have hown : ¬ (FeatureScan.ofCursor f.cursor).features.isExtension := fun h =>
          (hextension.1 h).elim hf fun hne => hne hsevered
        simp [hf, hown, hsevered]
      · simp [hf, hextension.2 (.inr hsevered), hsevered]

/-- A call whose parenthesis stands on the next line is severed. -/
theorem features_eq_iff_listen : ∃ scan, ∃ f ∈ scan.fragments,
    ofText? .standard "script\x7blisten\n(x)\x7d".toList = .ok scan ∧ f.context = .scriptLocal ∧
    f.features ≠ (FeatureScan.ofCursor f.cursor).features ∧ f.target = .script := by
  let text := "script\x7blisten\n(x)\x7d".toList
  have hscan : ofText? .standard text = .ok (ofText .standard text) :=
    ofText?_eq_ok .standard (by decide) (by decide)
  have hmem : ∃ f ∈ (ofText .standard text).fragments, f.context = .scriptLocal ∧
      FeatureScan.severedAll (parts .standard text f) = [.listenCall] ∧
      f.features = .none ∧ f.target = .script := by decide +kernel
  obtain ⟨f, hf, hcontext, hsevered, hfeatures, htarget⟩ := hmem
  refine ⟨_, f, hf, hscan, hcontext, ?_, htarget⟩
  intro heq
  have hall := (features_eq_iff hscan f hf hcontext).2.1.1 heq
  rw [hsevered, hfeatures] at hall
  exact absurd (hall .listenCall List.mem_cons_self) (by decide)

end Scan

end Polyglot
