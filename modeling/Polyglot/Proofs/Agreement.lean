-- SUMMARY: When a scan is one that reads all template text under one guard set.
import Polyglot.Proofs.Finding
import Polyglot.Proofs.Neighbour
import Polyglot.Proofs.Uniform

/-!
# One guard set for template text

`Scan.uniform` is a scan that heeds in all template text whether two hyphens begin a
comment: in the runs, in the braces of text blocks and in the values of elements. A scan
heeds it in the runs only. `Scan.agrees_uniform_iff` says when it is one with the
uniform scan: if every text block closes alike under both guard sets and every element
has the same values, and only then.
-/

namespace Polyglot

namespace Fragment

variable {options : Options} {f g : Fragment} {fs : List Fragment}

/-! ## Values of elements -/

/-- The fragment with the values of an element read under the guard set of the options. -/
def reread (options : Options) (f : Fragment) : Fragment :=
  if f.context = .elementBody then
    { f with literals := f.cursor.propertyLiterals [':', '='] (Outline.templateSet options) }
  else f

theorem reread_of_ne (h : f.context ≠ .elementBody) : f.reread options = f := if_neg h

theorem keepsText_reread (options : Options) : KeepsText (reread options) := by
  constructor <;> intro f <;> unfold reread <;> split <;> rfl

theorem mergeable_reread (f g : Fragment) :
    (f.reread options).mergeable (g.reread options) = f.mergeable g := by
  unfold reread
  split <;> split <;> rfl

/-- The neighbours in a list lie apart, unless they are of one local script. -/
def JoinsScripts (fs : List Fragment) : Prop :=
  fs.IsChain fun f g => f.Apart g ∨ f.context = .scriptLocal

/-- The fragments of a run lie in one context. -/
theorem context_eq_of_run {run : List Fragment} (h : run.IsChain fun f g => f.mergeable g) :
    run.Pairwise fun f g => f.context = g.context := by
  refine List.isChain_iff_pairwise.1 (h.imp fun f g hfg => ?_)
  simp only [mergeable, precedes, Bool.and_eq_true, decide_eq_true_eq] at hfg
  exact hfg.1.1.1.2

/-- The fragments of a run of several are of a local script. -/
theorem JoinsScripts.scriptLocal_of_run {more : List Fragment} (h : JoinsScripts fs)
    (hrun : f :: g :: more ∈ fs.splitBy mergeable) :
    ∀ x ∈ f :: g :: more, x.context = .scriptLocal := by
  have hmerge := List.isChain_of_mem_splitBy hrun
  have hcontexts := List.pairwise_cons.1 (context_eq_of_run hmerge)
  have hfirst : f.context = .scriptLocal := by
    have hpart : f :: g :: more <:+: fs := by
      obtain ⟨before, behind, hsplit⟩ := List.append_of_mem hrun
      refine ⟨before.flatten, behind.flatten, ?_⟩
      rw [← List.flatten_splitBy mergeable fs, hsplit]
      simp
    have hchain := List.IsChain.infix h hpart
    refine (List.isChain_cons_cons.1 hchain).1.resolve_left fun hapart => ?_
    have := (List.isChain_cons_cons.1 hmerge).1
    rw [mergeable_of_apart hapart] at this
    cases this
  intro x hx
  rcases List.mem_cons.1 hx with rfl | hx
  · exact hfirst
  · rw [← hcontexts.1 x hx, hfirst]

/-- To read the elements again makes the same of a run, as no element is ever merged. -/
theorem JoinsScripts.addRun_reread (h : JoinsScripts fs) (options : Options)
    {run : List Fragment} (hrun : run ∈ fs.splitBy mergeable) (done : List Fragment) (n : Nat) :
    addRun (done.map (reread options), n) (run.map (reread options)) =
      ((addRun (done, n) run).1.map (reread options), (addRun (done, n) run).2) := by
  cases run with
  | nil => rfl
  | cons f more =>
    cases more with
    | nil => rfl
    | cons g more =>
      have hlocal := h.scriptLocal_of_run hrun
      have hkeep : ∀ x ∈ f :: g :: more, x.reread options = x := fun x hx =>
        reread_of_ne (by rw [hlocal x hx]; decide)
      have hmerged : (f.mergeRun (g :: more) n).reread options = f.mergeRun (g :: more) n := by
        have hcontext : (f.mergeRun (g :: more) n).context = f.context := rfl
        exact reread_of_ne (by rw [hcontext, hlocal f List.mem_cons_self]; decide)
      rw [List.map_congr_left hkeep, List.map_id']
      simp [addRun, hmerged]

theorem foldl_addRun_map {φ : Fragment → Fragment} {runs : List (List Fragment)}
    (h : ∀ run ∈ runs, ∀ done n, addRun (done.map φ, n) (run.map φ) =
      ((addRun (done, n) run).1.map φ, (addRun (done, n) run).2))
    (done : List Fragment) (n : Nat) :
    (runs.map (List.map φ)).foldl addRun (done.map φ, n) =
      ((runs.foldl addRun (done, n)).1.map φ, (runs.foldl addRun (done, n)).2) := by
  induction runs generalizing done n with
  | nil => rfl
  | cons run runs ih =>
    rw [List.map_cons, List.foldl_cons, List.foldl_cons, h run List.mem_cons_self]
    exact ih (fun x hx => h x (List.mem_cons_of_mem run hx)) _ _

/-- To read the elements again goes with merging. -/
theorem aggregate_reread (h : JoinsScripts fs) (issued : Nat) :
    aggregate issued (fs.map (reread options)) =
      ((aggregate issued fs).1.map (reread options), (aggregate issued fs).2) := by
  have hfold := foldl_addRun_map (fun run hrun => h.addRun_reread options hrun) [] issued
  rw [List.map_nil] at hfold
  simp only [aggregate, splitBy_map (reread options) mergeable_reread, hfold, List.map_reverse]

end Fragment

namespace Scan

variable {options : Options} {text : List Char}

/-! ## What a scan makes of the structural pass -/

/-- Stitch what the structural pass has emitted, note what each fragment holds, and merge
if the options say so. -/
def ofOutline (note : Fragment → Fragment) (options : Options) (outline : Outline) : Scan :=
  let fs := (Fragment.stitchAll options.stitchWindow outline.fragments).map note
  let (merged, issued) :=
    if options.aggregate then Fragment.aggregate outline.issued fs else (fs, outline.issued)
  ⟨merged, foreignRemarks fs outline.log, issued⟩

/-- A scan that reads all template text under the guard set of the options. -/
def uniform (options : Options) (text : List Char) : Scan :=
  ofOutline (fun f => f.classify.reread options) options
    (Outline.uniformOfText options text (encodingRemarks text .empty))

theorem ofText_eq_ofOutline (options : Options) (text : List Char) :
    ofText options text = ofOutline Fragment.classify options (outline options text) := rfl

variable {note : Fragment → Fragment} {o : Outline} {k : Scope}

theorem errors_ofOutline (note : Fragment → Fragment) (options : Options) (o : Outline) :
    (ofOutline note options o).log.errors = o.log.errors := (foreignRemarks_eq _ _).1

/-- The text of a fragment that is alone in its scope goes through a scan. -/
theorem under_ofOutline (hnote : Fragment.KeepsText note)
    (h : (Fragment.under k o.emitted).length ≤ 1) :
    Fragment.under k (ofOutline note options o).fragments = Fragment.under k o.emitted := by
  have hfragments : Fragment.under k o.fragments = Fragment.under k o.emitted :=
    Fragment.under_reverse h
  have hnoted : Fragment.under k
      ((Fragment.stitchAll options.stitchWindow o.fragments).map note) =
        Fragment.under k o.emitted := by
    rw [hnote.under_map, (Fragment.stitchAll_leavesLone _).under_eq, hfragments]
    rwa [hfragments]
  unfold ofOutline
  cases options.aggregate with
  | false => exact hnoted
  | true =>
    simp only [if_true]
    rw [Fragment.under_aggregate, hnoted]
    rwa [hnoted]

/-! ## Agreement -/

/-- Where a scan does not heed the options, they make no difference: every text block
closes alike and every element has the same values under the full guard set of the
template language and under that of the options. -/
structure ReadsUniformly (options : Options) (text : List Char) : Prop where
  blocks : Outline.BlocksCloseAlike options
    (Outline.signsOfText options text (encodingRemarks text .empty))
  values : ∀ f ∈ (ofText options text).fragments, f.context = .elementBody →
    f.cursor.propertyLiterals [':', '='] .template =
      f.cursor.propertyLiterals [':', '='] (Outline.templateSet options)

/-- If hyphens begin comments, there is only one guard set. -/
theorem readsUniformly_of_comments (h : options.generatorComments = true) (text : List Char) :
    ReadsUniformly options text := by
  have hset : Outline.templateSet options = .template := by rw [Outline.templateSet, h]; rfl
  refine ⟨fun d _ => ?_, fun f _ _ => by rw [hset]⟩
  rw [hset]
  cases d.matchingClose .template <;> exact rfl

/-- Before merging, only the parts of a local script have neighbours to merge with. -/
theorem joinsScripts_stitched (options : Options) (text : List Char) :
    Fragment.JoinsScripts ((Fragment.stitchAll options.stitchWindow
      (outline options text).fragments).map Fragment.classify) := by
  have hpieces := (Outline.mirrors_ofText options text (encodingRemarks text .empty)).emitted
  have hdivision := blocks_division options text
  have hunnumbered : (((Fragment.stitchAll options.stitchWindow
      (outline options text).fragments).map Fragment.classify).map Fragment.unnumbered) =
        (blocks options text).flatMap fun u =>
          (Fragment.stitchAll options.stitchWindow (u.pieces options)).map Fragment.classify := by
    have hclassify : Fragment.unnumbered ∘ Fragment.classify =
        Fragment.classify ∘ Fragment.unnumbered :=
      funext fun f => (Fragment.classify_unnumbered f).symm
    rw [List.map_map, hclassify, ← List.map_map, ← Fragment.stitchAll_unnumbered, outline, hpieces]
    exact Fragment.stitchAll_flatMap (blocks_apart options text) hdivision options.stitchWindow
  have hchain : Fragment.JoinsScripts (((Fragment.stitchAll options.stitchWindow
      (outline options text).fragments).map Fragment.classify).map Fragment.unnumbered) := by
    rw [hunnumbered]
    have hstitched := Fragment.isDivision_stitchAll hdivision options.stitchWindow
    refine Fragment.isChain_flatMap (blocks_apart options text) hstitched (fun u hu => ?_)
      fun f g hfg => .inl hfg
    by_cases hcut : u.context = .scriptLocal ∧ options.splitStatements
    · refine (List.pairwise_of_forall_mem_list fun f hf g hg => .inr ?_).isChain
      rw [← (hstitched.kin u hu f hf).1]
      exact hcut.1
    · rw [Outline.pieces_of_not hcut]
      exact .singleton _
  unfold Fragment.JoinsScripts at hchain
  rw [List.isChain_map] at hchain
  exact hchain

/-- If the passes are alike, the uniform scan only reads the elements again. -/
theorem fragments_uniform (h : (outline options text).Alike
    (Outline.uniformOfText options text (encodingRemarks text .empty))) :
    (uniform options text).fragments =
      (ofText options text).fragments.map (Fragment.reread options) := by
  have hfragments : (Outline.uniformOfText options text (encodingRemarks text .empty)).fragments =
      (outline options text).fragments := congrArg List.reverse h.emitted.symm
  unfold uniform
  rw [ofText_eq_ofOutline]
  unfold ofOutline
  rw [hfragments, ← h.issued]
  have hmap : (Fragment.stitchAll options.stitchWindow (outline options text).fragments).map
      (fun f => f.classify.reread options) =
        ((Fragment.stitchAll options.stitchWindow (outline options text).fragments).map
          Fragment.classify).map (Fragment.reread options) := by
    rw [List.map_map]
    rfl
  rw [hmap]
  cases options.aggregate with
  | false => rfl
  | true => simp only [if_true, Fragment.aggregate_reread (joinsScripts_stitched options text)]

/-- The values of an element are those of its own text, under the full guard set. -/
theorem literals_of_elementBody {f : Fragment} (hf : f ∈ (ofText options text).fragments)
    (hcontext : f.context = .elementBody) :
    f.literals = f.cursor.propertyLiterals [':', '='] .template := by
  obtain ⟨u, hu, hsame, hblock⟩ := exists_block_classify hf (by rw [hcontext]; decide)
  have hread : u.classify.cursor = u.cursor ∧
      u.classify.literals = u.cursor.propertyLiterals [':', '='] .template := by
    unfold Fragment.classify
    rw [hsame, hcontext]
    exact ⟨rfl, rfl⟩
  have hcursor : f.cursor = u.classify.cursor := (congrArg Fragment.cursor hblock :)
  have hliterals : f.literals = u.classify.literals := (congrArg Fragment.literals hblock :)
  rw [hliterals, hread.2, hcursor, hread.1]

/-- To read an element again leaves it alone exactly if its values are the same. -/
theorem reread_eq_iff {f : Fragment} (hf : f ∈ (ofText options text).fragments) :
    f.reread options = f ↔ (f.context = .elementBody →
      f.cursor.propertyLiterals [':', '='] .template =
        f.cursor.propertyLiterals [':', '='] (Outline.templateSet options)) := by
  by_cases hcontext : f.context = .elementBody
  · rw [Fragment.reread, if_pos hcontext, ← literals_of_elementBody hf hcontext]
    constructor
    · intro h _
      exact (congrArg Fragment.literals h).symm
    · intro h
      rw [← h hcontext]
  · exact ⟨fun _ h => absurd h hcontext, fun _ => Fragment.reread_of_ne hcontext⟩

/-- A scan is one with the uniform scan exactly if its document reads uniformly. -/
theorem agrees_uniform_iff {scan : Scan} (h : ofText? options text = .ok scan) :
    (scan.fragments = (uniform options text).fragments ∧
      scan.log.errors = (uniform options text).log.errors) ↔ ReadsUniformly options text := by
  rw [eq_ofText h]
  obtain ⟨halike, hdiffers⟩ := Outline.ofText_compare options text (encodingRemarks text .empty)
  have herrors : (ofText options text).log.errors = (outline options text).log.errors :=
    errors_ofOutline _ _ _
  have huniform : (uniform options text).log.errors =
      (Outline.uniformOfText options text (encodingRemarks text .empty)).log.errors :=
    errors_ofOutline _ _ _
  by_cases hblocks : Outline.BlocksCloseAlike options
      (Outline.signsOfText options text (encodingRemarks text .empty))
  · have hpass := halike hblocks
    have hsame : (ofText options text).log.errors = (uniform options text).log.errors := by
      rw [herrors, huniform]
      exact hpass.errors
    rw [fragments_uniform hpass]
    constructor
    · rintro ⟨hfragments, -⟩
      refine ⟨hblocks, fun f hf => (reread_eq_iff hf).1 ?_⟩
      exact List.map_inj_left.1 (hfragments.symm.trans (List.map_id _).symm) f hf
    · intro hreads
      refine ⟨?_, hsame⟩
      have hkeep : ∀ f ∈ (ofText options text).fragments, f.reread options = id f :=
        fun f hf => (reread_eq_iff hf).2 (hreads.values f hf)
      rw [List.map_congr_left hkeep, List.map_id]
  · refine iff_of_false ?_ fun hreads => hblocks hreads.blocks
    rintro ⟨hfragments, hlogged⟩
    rcases hdiffers hblocks with hne | ⟨k, hfirst, hsecond, hne⟩
    · rw [herrors, huniform] at hlogged
      exact hne hlogged
    · have hnote := (Fragment.keepsText_reread options).comp Fragment.keepsText_classify
      have hcode : Fragment.under k (ofText options text).fragments =
          Fragment.under k (outline options text).emitted :=
        under_ofOutline Fragment.keepsText_classify hfirst
      have hother : Fragment.under k (uniform options text).fragments = Fragment.under k
          (Outline.uniformOfText options text (encodingRemarks text .empty)).emitted :=
        under_ofOutline hnote hsecond
      rw [hfragments, hother] at hcode
      exact hne hcode.symm

/-- Hyphens in the runs only, where the options are heeded, and hyphens in front of a
closing brace in a text block, where they are not. -/
theorem agrees_uniform_iff_hyphens :
    ∃ options : Options, options.generatorComments = false ∧
      (∃ scan, ofText? options "-- \x7b\n\x7d text \x7b a - b \x7d".toList = .ok scan ∧
        ReadsUniformly options "-- \x7b\n\x7d text \x7b a - b \x7d".toList) ∧
      ∃ scan, ofText? options "text\x7b -- \x7d\n\x7d".toList = .ok scan ∧
        scan.fragments ≠ (uniform options "text\x7b -- \x7d\n\x7d".toList).fragments ∧
        ¬ ReadsUniformly options "text\x7b -- \x7d\n\x7d".toList := by
  refine ⟨{ Options.standard with generatorComments := false }, rfl,
    ⟨_, rfl, (agrees_uniform_iff rfl).1 (by decide +kernel)⟩, ⟨_, rfl, ?_⟩⟩
  have hne : (ofText { Options.standard with generatorComments := false }
      "text\x7b -- \x7d\n\x7d".toList).fragments ≠
        (uniform { Options.standard with generatorComments := false }
          "text\x7b -- \x7d\n\x7d".toList).fragments := by decide +kernel
  exact ⟨hne, fun hreads => hne ((agrees_uniform_iff rfl).2 hreads).1⟩

end Scan

end Polyglot
