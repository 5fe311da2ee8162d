-- SUMMARY: A scan that cuts local scripts into statements refines the scan that keeps them whole.
import Polyglot.Proofs.Dialect
import Polyglot.Proofs.Finding

/-!
# Cutting scripts refines a scan

Two scans of one document that differ only in whether local scripts are cut find the
same (`Scan.refines_unsplit`): where one has a script, the other has a run of its
statements, and a warning about foreign syntax in the whole script is the first of the
warnings about its statements.
-/

namespace Polyglot

namespace Fragment

/-! ## Merging the statements of a script -/

/-- The two fragments are local scripts of one scope. -/
def sameScript (f g : Fragment) : Bool :=
  f.context = .scriptLocal && g.context = .scriptLocal && f.scope = g.scope

/-- Every maximal run of neighbouring local scripts in one scope as one fragment. -/
def mergeScripts (fs : List Fragment) : List Fragment := (fs.splitBy sameScript).filterMap joined?

/-- The fragment without its number and its features. -/
def unmarked (f : Fragment) : Fragment := { f with id := 0, features := .none }

theorem unmarked_eq {f g : Fragment} (hkin : f.Kin g) (hcontent : f.content = g.content)
    (hstart : f.start = g.start) (hstop : f.stop = g.stop) (hliterals : f.literals = g.literals) :
    f.unmarked = g.unmarked := by
  obtain ⟨hframe, hdegraded⟩ := hkin
  simp only [unmarked, hframe, hdegraded, hcontent, hstart, hstop, hliterals]

theorem mergeScripts_unnumbered (fs : List Fragment) :
    mergeScripts (fs.map unnumbered) = mergeScripts fs := by
  have hjoined : joined? ∘ List.map unnumbered = joined? := funext joined?_unnumbered
  rw [mergeScripts, splitBy_map unnumbered (fun _ _ => rfl), List.filterMap_map, hjoined]
  rfl

/-- Fragments that stay apart are merged part by part. -/
theorem splitBy_sameScript_append (fs gs : List Fragment)
    (h : ∀ f ∈ fs, ∀ g ∈ gs.head?, f.Apart g) :
    (fs ++ gs).splitBy sameScript = fs.splitBy sameScript ++ gs.splitBy sameScript := by
  refine List.splitBy_append fun f hf g hg => ?_
  have hapart := h f (List.mem_of_getLast? hf) g hg
  cases hsame : f.sameScript g with
  | false => rfl
  | true =>
    simp only [sameScript, Bool.and_eq_true, decide_eq_true_eq] at hsame
    exact absurd ⟨hsame.2, hsame.1.1.trans hsame.1.2.symm⟩ hapart

/-- Neighbours of one local script make one run. -/
theorem splitBy_sameScript_of_kin {u : Fragment} {fs : List Fragment}
    (hlocal : u.context = .scriptLocal) (hne : fs ≠ []) (hkin : ∀ f ∈ fs, u.Kin f) :
    fs.splitBy sameScript = [fs] := by
  refine List.splitBy_of_isChain hne (List.pairwise_of_forall_mem_list fun f hf g hg => ?_).isChain
  obtain ⟨hf, -⟩ := hkin f hf
  obtain ⟨hg, -⟩ := hkin g hg
  have hlocal' : f.context = .scriptLocal ∧ g.context = .scriptLocal ∧ f.scope = g.scope := by
    rw [← hf, ← hg]
    exact ⟨hlocal, hlocal, rfl⟩
  simp [sameScript, hlocal']

end Fragment

namespace Scan

variable {options : Options} {text : List Char}

/-! ## Block by block -/

/-- To merge neighbours keeps the literals of a block. -/
theorem work_literals (options : Options) (u : Fragment) :
    (work options u).flatMap Fragment.literals =
      (work options.unmerged u).flatMap Fragment.literals := by
  have hparts : work options.unmerged u =
      ((Fragment.stitchAll options.stitchWindow (u.pieces options)).map Fragment.classify).map
        Fragment.unnumbered := rfl
  rw [hparts]
  unfold work Fragment.assemble
  cases options.aggregate with
  | false => rfl
  | true =>
    simp only [if_true]
    rw [Fragment.literals_joined, List.flatten_splitBy]
    exact (List.flatMap_map Fragment.unnumbered Fragment.literals _).symm

/-- The statements of a local script, merged, are the script. -/
theorem mergeScripts_work {u : Fragment} (hu : u ∈ blocks options text) :
    (Fragment.mergeScripts (work options u)).map Fragment.unmarked = [u.classify.unmarked] := by
  by_cases hlocal : u.context = .scriptLocal
  · have hu' := mem_blocks_unmerged hu
    have hkin : ∀ f ∈ work options u, u.Kin f := fun f hf => kin_work hu hf
    obtain ⟨-, code, hread, hmatch⟩ := isBody_of_scriptLocal hu hlocal
    rw [hlocal] at hread
    obtain ⟨hliterals, -⟩ :=
      FeatureScan.ofCursor_tiles hread hmatch rfl (work_cuts hu' hlocal)
    have hparts : (work options.unmerged u).flatMap
        (fun f => (FeatureScan.ofCursor f.cursor).literals) =
          (work options.unmerged u).flatMap Fragment.literals :=
      List.flatMap_congr fun f hf => (work_unmerged hu hlocal hf).2.symm
    rw [hparts, ← work_literals] at hliterals
    rw [Fragment.mergeScripts, Fragment.splitBy_sameScript_of_kin hlocal (work_ne_nil hu) hkin]
    have htiles := work_cuts hu hlocal
    cases hwork : work options u with
    | nil => exact absurd hwork (work_ne_nil hu)
    | cons g more =>
      rw [hwork] at htiles hliterals hkin
      obtain ⟨hcovers, -⟩ := htiles.mergeRun 0
      have hjoined : Fragment.joined? (g :: more) = some (g.mergeRun more 0) := rfl
      obtain ⟨-, hown, -⟩ := classify_scriptLocal hlocal
      have hsame : (g.mergeRun more 0).Kin u.classify :=
        (hkin g List.mem_cons_self).symm.trans (Fragment.kin_classify u)
      have hplace := (Fragment.covers_classify (covers_cursor hu))
      have hcontent : (g.mergeRun more 0).content = u.classify.content :=
        List.append_cancel_right (hcovers.read.1.symm.trans hplace.read.1)
      simp only [List.filterMap_cons, hjoined, List.filterMap_nil, List.map_cons, List.map_nil]
      refine congrArg (fun f => [f]) (Fragment.unmarked_eq hsame hcontent ?_ ?_ ?_)
      · rw [hcovers.start, hplace.start]
      · rw [hcovers.stop, hplace.stop]
      · rw [Fragment.literals_mergeRun, ← hliterals, hown]
  · rw [work_of_not fun hcut => hlocal hcut.1]
    have hrun : [u.classify.unnumbered].splitBy Fragment.sameScript = [[u.classify.unnumbered]] :=
      rfl
    rw [Fragment.mergeScripts, hrun]
    simp only [List.filterMap_cons, Fragment.joined?_singleton]
    rfl

/-! ## Refinement -/

/-- A scan that cuts local scripts into statements refines one that keeps them whole. -/
structure Refines (split whole : Scan) : Prop where
  /-- Merged, the statements are the scripts, up to numbers and features. -/
  fragments : (Fragment.mergeScripts split.fragments).map Fragment.unmarked =
    whole.fragments.map Fragment.unmarked
  /-- What is merged has one frame, and error recovery made all of it or nothing. -/
  kin : ∀ run ∈ split.fragments.splitBy Fragment.sameScript, ∀ f ∈ run, ∀ g ∈ run, f.Kin g
  errors : split.log.errors = whole.log.errors
  warnings : split.log.warnings.filter (·.kind ≠ .foreignSyntax) =
    whole.log.warnings.filter (·.kind ≠ .foreignSyntax)
  /-- The foreign syntax of a whole fragment is the first that was noted in its text. -/
  foreign : ∀ f ∈ whole.fragments, whole.foreignIn f = (split.foreignIn f).take 1
  /-- Foreign syntax is noted in the order of the text. -/
  order : ∀ f ∈ whole.fragments,
    (split.foreignIn f).Pairwise fun v w => v.position.offset < w.position.offset

theorem isDivision_work (options : Options) (text : List Char) :
    Fragment.IsDivision (work options) (blocks options text) :=
  ⟨fun _ hu => work_ne_nil hu, fun _ hu _ hf => kin_work hu hf⟩

/-- The runs of local scripts are those of each block. -/
theorem splitBy_fragments (options : Options) (text : List Char) :
    ((ofText options text).fragments.map Fragment.unnumbered).splitBy Fragment.sameScript =
      (blocks options text).flatMap fun u => (work options u).splitBy Fragment.sameScript := by
  rw [fragments_eq]
  exact Fragment.flatMap_apart (List.splitBy Fragment.sameScript) rfl
    Fragment.splitBy_sameScript_append (blocks_apart options text) (isDivision_work options text)

/-- What is merged comes from one block. -/
theorem exists_kin_of_run {run : List Fragment}
    (hrun : run ∈ (ofText options text).fragments.splitBy Fragment.sameScript) :
    ∃ u : Fragment, ∀ f ∈ run, u.Kin f := by
  have hmem : run.map Fragment.unnumbered ∈ (blocks options text).flatMap fun u =>
      (work options u).splitBy Fragment.sameScript := by
    rw [← splitBy_fragments, Fragment.splitBy_map Fragment.unnumbered fun _ _ => rfl]
    exact List.mem_map_of_mem hrun
  obtain ⟨u, hu, hrun'⟩ := List.mem_flatMap.1 hmem
  refine ⟨u, fun f hf => ?_⟩
  have hwork : f.unnumbered ∈ work options u := by
    rw [← List.flatten_splitBy Fragment.sameScript (work options u)]
    exact List.mem_flatten.2 ⟨_, hrun', List.mem_map_of_mem hf⟩
  have hkin : u.Kin f.unnumbered := kin_work hu hwork
  exact hkin

/-- Without cuts a scan has one fragment for each block. -/
theorem fragments_unsplit (options : Options) (text : List Char) :
    (ofText options.unsplit text).fragments.map Fragment.unnumbered =
      (blocks options text).map fun u => u.classify.unnumbered := by
  have hblocks : blocks options.unsplit text = blocks options text := rfl
  have hwork : ∀ u, work options.unsplit u = [u.classify.unnumbered] := fun u =>
    work_of_not (by simp [Options.unsplit])
  rw [fragments_eq, hblocks, List.map_eq_flatMap]
  exact List.flatMap_congr fun u _ => hwork u

/-- A fragment of a scan without cuts lies where its block lies. -/
theorem exists_block_unsplit {f : Fragment} (hf : f ∈ (ofText options.unsplit text).fragments) :
    ∃ u ∈ blocks options text, f.start = u.start ∧ f.stop = u.stop := by
  have hmem : f.unnumbered ∈ (blocks options text).map fun u => u.classify.unnumbered :=
    fragments_unsplit options text ▸ List.mem_map_of_mem hf
  obtain ⟨u, hu, heq⟩ := List.mem_map.1 hmem
  have hcovers := Fragment.covers_unnumbered.2 (Fragment.covers_classify (covers_cursor hu))
  rw [heq] at hcovers
  exact ⟨u, hu, hcovers.start, hcovers.stop⟩

theorem refines_ofText (options : Options) (text : List Char) :
    Refines (ofText options text) (ofText options.unsplit text) := by
  obtain ⟨herrors, hwarnings⟩ := log_eq options text
  obtain ⟨herrors', hwarnings'⟩ := log_eq options.unsplit text
  have hlog : outlineLog options.unsplit text = outlineLog options text := rfl
  have hforeign : ∀ (options : Options), ((blocks options text).flatMap fun u =>
      (work options.unmerged u).filterMap Fragment.remark?).filter
        (·.kind ≠ .foreignSyntax) = [] := by
    intro options
    rw [List.filter_eq_nil_iff]
    intro w hw
    obtain ⟨u, -, hw⟩ := List.mem_flatMap.1 hw
    obtain ⟨f, -, hremark⟩ := List.mem_filterMap.1 hw
    simp [Fragment.remark?_kind hremark]
  refine ⟨?_, ?_, ?_, ?_, ?_, ?_⟩
  · have hunmarked : Fragment.unmarked ∘ Fragment.unnumbered = Fragment.unmarked := rfl
    have hwhole := congrArg (List.map Fragment.unmarked) (fragments_unsplit options text)
    rw [List.map_map, List.map_map, hunmarked] at hwhole
    rw [hwhole, ← Fragment.mergeScripts_unnumbered, Fragment.mergeScripts, splitBy_fragments,
      List.filterMap_flatMap, List.map_flatMap, List.map_eq_flatMap]
    exact List.flatMap_congr fun u hu => mergeScripts_work hu
  · intro run hrun f hf g hg
    obtain ⟨u, hkin⟩ := exists_kin_of_run hrun
    exact (hkin f hf).symm.trans (hkin g hg)
  · rw [herrors, herrors', hlog]
  · rw [hwarnings, hwarnings', hlog, List.filter_append, List.filter_append, hforeign, hforeign]
  · intro f hf
    obtain ⟨u, hu, hstart, hstop⟩ := exists_block_unsplit hf
    have hu' : u ∈ blocks options.unsplit text := hu
    have hwhole : work options.unsplit.unmerged u = [u.classify.unnumbered] :=
      work_of_not (by simp [Options.unsplit, Options.unmerged])
    have hremark : u.classify.unnumbered.remark? = u.remark? := u.remark?_classify
    rw [foreignIn_eq hu hstart hstop, foreignIn_eq hu' hstart hstop, hwhole, List.take_one,
      head?_remarks hu]
    cases h : u.remark? with
    | none => simp [hremark, h]
    | some w => simp [hremark, h]
  · intro f hf
    obtain ⟨u, hu, hstart, hstop⟩ := exists_block_unsplit hf
    obtain ⟨P, htiles⟩ := work_tiles (mem_blocks_unmerged hu)
    rw [foreignIn_eq hu hstart hstop]
    exact htiles.remark?_pairwise

/-- Scans that differ only in whether local scripts are cut into statements refuse the same
documents, and else the one that cuts refines the one that does not. -/
theorem refines_unsplit (options : Options) (text : List Char) :
    (∃ fault, ofText? options text = .error fault ∧ ofText? options.unsplit text = .error fault) ∨
    ∃ split whole, ofText? options text = .ok split ∧ ofText? options.unsplit text = .ok whole ∧
      Refines split whole := by
  unfold ofText?
  split
  · exact .inl ⟨_, rfl, rfl⟩
  · split
    · exact .inl ⟨_, rfl, rfl⟩
    · exact .inr ⟨_, _, rfl, rfl, refines_ofText options text⟩

/-- Two statements for different compilers, of which only the second one calls. Without cuts
they are one fragment, which has the target of the second. -/
example :
    let text := "script \x7b a();\nlisten(x); \x7d".toList
    let split := (ofText .standard text).fragments
    let whole := (ofText Options.standard.unsplit text).fragments
    split.map Fragment.target = [.template, .script, .scriptExtension, .template] ∧
    whole.map Fragment.target = [.template, .scriptExtension, .template] ∧
    (Fragment.mergeScripts split).map Fragment.unmarked = whole.map Fragment.unmarked := by
  decide +kernel

end Scan

end Polyglot
