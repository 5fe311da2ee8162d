-- SUMMARY: Only statements of one local script are ever joined.
import Polyglot.Proofs.Scan

/-!
# Neighbours

Two fragments are joined only if they lie side by side in one scope and context. The
structural pass emits such neighbours in one case only, when it cuts a local script into
its statements. So without cuts there is nothing to stitch and nothing to merge, and
the options that govern both make no difference.
-/

namespace Polyglot

namespace Fragment

/-! ## Nothing to join -/

/-- Fragments whose boundaries are all kept are stitched to those before them one by one. -/
theorem foldl_stitchNext_of_kept {window : Nat} {fs : List Fragment}
    (h : fs.IsChain fun f g => f.stitch window g = (f, some g)) (done : List Fragment)
    (hnext : ∀ f ∈ done.head?, ∀ g ∈ fs.head?, f.stitch window g = (f, some g)) :
    fs.foldl (stitchNext window) done = fs.reverse ++ done := by
  induction fs generalizing done with
  | nil => rfl
  | cons g fs ih =>
    have hadd : stitchNext window done g = g :: done := by
      cases done with
      | nil => rfl
      | cons f done => rw [stitchNext, hnext f rfl g rfl]
    have hmore : ∀ f ∈ (g :: done).head?, ∀ k ∈ fs.head?, f.stitch window k = (f, some k) := by
      intro f hf k hk
      obtain rfl : g = f := by simpa using hf
      exact h.rel_head? hk
    rw [List.foldl_cons, hadd, ih h.tail _ hmore, List.reverse_cons, List.append_assoc]
    rfl

/-- Where every boundary is kept, stitching changes nothing. -/
theorem stitchAll_of_kept {window : Nat} {fs : List Fragment}
    (h : fs.IsChain fun f g => f.stitch window g = (f, some g)) : stitchAll window fs = fs := by
  rw [stitchAll, foldl_stitchNext_of_kept h [] (by simp), List.append_nil, List.reverse_reverse]

/-- Neighbours that lie apart are not stitched. -/
theorem stitchAll_of_apart {fs : List Fragment} (h : fs.IsChain Apart) (window : Nat) :
    stitchAll window fs = fs :=
  stitchAll_of_kept (h.imp fun f g hfg => by simp [stitch, precedes_of_apart hfg])

/-- Neighbours that may not be merged form runs of one fragment each. -/
theorem splitBy_of_unmergeable {fs : List Fragment}
    (h : fs.IsChain fun f g => f.mergeable g = false) :
    fs.splitBy mergeable = fs.map fun f => [f] := by
  induction fs with
  | nil => rfl
  | cons f fs ih =>
    have hnext : ∀ f' ∈ [f].getLast?, ∀ g ∈ fs.head?, f'.mergeable g = false := by
      intro f' hf' g hg
      obtain rfl : f = f' := by simpa using hf'
      exact h.rel_head? hg
    calc (f :: fs).splitBy mergeable
      _ = [f].splitBy mergeable ++ fs.splitBy mergeable := List.splitBy_append hnext
      _ = [[f]] ++ fs.map fun f => [f] := by rw [ih h.tail]; rfl

/-- A fragment on its own keeps its number. -/
theorem foldl_addRun_singletons (fs done : List Fragment) (issued : Nat) :
    (fs.map fun f => [f]).foldl addRun (done, issued) = (fs.reverse ++ done, issued) := by
  induction fs generalizing done with
  | nil => rfl
  | cons f fs ih =>
    rw [List.map_cons, List.foldl_cons, addRun, ih, List.reverse_cons, List.append_assoc]
    rfl

/-- Where no neighbours may be merged, all stay as they are, and no number is given out. -/
theorem aggregate_of_unmergeable {fs : List Fragment}
    (h : fs.IsChain fun f g => f.mergeable g = false) (issued : Nat) :
    aggregate issued fs = (fs, issued) := by
  simp [aggregate, splitBy_of_unmergeable h, foldl_addRun_singletons]

/-- Neighbours that lie apart are not merged. -/
theorem aggregate_of_apart {fs : List Fragment} (h : fs.IsChain Apart) (issued : Nat) :
    aggregate issued fs = (fs, issued) :=
  aggregate_of_unmergeable (h.imp fun _ _ hfg => mergeable_of_apart hfg) issued

theorem isChain_classify {fs : List Fragment} (h : fs.IsChain Apart) :
    (fs.map classify).IsChain Apart := by
  rw [List.isChain_map]
  exact h.imp fun f g hfg => hfg.of_kin (kin_classify f) (kin_classify g)

/-- Two fragments that were joined lie beside the next one as the second of them did. -/
theorem precedes_merge {f g : Fragment} (hnext : f.precedes g) (h : Fragment) :
    (f.merge g).precedes h = g.precedes h := by
  simp only [precedes, Bool.and_eq_true, decide_eq_true_eq, Bool.not_eq_true'] at hnext
  obtain ⟨⟨⟨⟨-, hscope⟩, hcontext⟩, hf⟩, hg⟩ := hnext
  simp [precedes, merge, hscope, hcontext, hf, hg]

/-- Statements have no numbers yet. -/
theorem unnumbered_of_mem_statements {u f : Fragment} (hf : f ∈ u.statements) :
    f.unnumbered = f := by
  obtain ⟨⟨c, d⟩, -, hpart⟩ := List.mem_filterMap.1 hf
  dsimp only at hpart
  unfold part? at hpart
  split at hpart
  · cases hpart
  · cases hpart
    rfl

end Fragment

namespace Scan

variable {options : Options}

/-! ## The structural pass -/

/-- The fragments of the structural pass, before any is joined. -/
def outline (options : Options) (text : List Char) : Outline :=
  Outline.ofText options text (encodingRemarks text .empty)

/-- The two fragments are statements of one local script, which the options cut. -/
def AreStatements (options : Options) (text : List Char) (f g : Fragment) : Prop :=
  options.splitStatements ∧ ∃ u ∈ blocks options text, u.context = .scriptLocal ∧
    f.unnumbered ∈ u.statements ∧ g.unnumbered ∈ u.statements

/-- Neighbours of the structural pass lie apart, unless they are statements of one script. -/
theorem isChain_outline (options : Options) (text : List Char) :
    (outline options text).fragments.IsChain fun f g =>
      f.Apart g ∨ AreStatements options text f g := by
  have hpieces := (Outline.mirrors_ofText options text (encodingRemarks text .empty)).emitted
  have hchain : ((outline options text).fragments.map Fragment.unnumbered).IsChain fun f g =>
      f.Apart g ∨ AreStatements options text f g := by
    rw [outline, hpieces]
    refine Fragment.isChain_flatMap (blocks_apart options text) (blocks_division options text)
      (fun u hu => ?_) fun f g hfg => .inl hfg
    by_cases hcut : u.context = .scriptLocal ∧ options.splitStatements
    · have hstatements : u.pieces options = u.statements := if_pos (by simpa using hcut)
      rw [hstatements]
      refine (List.pairwise_of_forall_mem_list fun f hf g hg => .inr ?_).isChain
      refine ⟨hcut.2, u, hu, hcut.1, ?_, ?_⟩
      · rwa [Fragment.unnumbered_of_mem_statements hf]
      · rwa [Fragment.unnumbered_of_mem_statements hg]
    · rw [Outline.pieces_of_not hcut]
      exact .singleton _
  rw [List.isChain_map] at hchain
  exact hchain

/-- If local scripts are kept whole, neighbours lie apart. -/
theorem outline_apart (hwhole : options.splitStatements = false) (text : List Char) :
    (outline options text).fragments.IsChain Fragment.Apart :=
  (isChain_outline options text).imp fun f g hfg =>
    hfg.resolve_right fun hcut => by simpa [hwhole] using hcut.1

/-! ## The scan -/

/-- A scan that keeps local scripts whole classifies what the structural pass has found,
and does nothing else with it. -/
theorem ofText_whole (hwhole : options.splitStatements = false) (text : List Char) :
    ofText options text = ⟨(outline options text).fragments.map Fragment.classify,
      foreignRemarks ((outline options text).fragments.map Fragment.classify)
        (outline options text).log,
      (outline options text).issued⟩ := by
  have hapart := outline_apart hwhole text
  unfold ofText
  rw [← outline]
  simp only [Fragment.stitchAll_of_apart hapart,
    Fragment.aggregate_of_apart (Fragment.isChain_classify hapart), ite_self]

/-- The structural pass neither stitches nor merges. -/
theorem outline_merging (options : Options) (stitchWindow : Nat) (aggregate : Bool)
    (text : List Char) : outline (options.merging stitchWindow aggregate) text =
      outline options text :=
  Outline.walk_merging options stitchWindow aggregate _ _

/-- Only statements of one local script are ever joined. The structural pass leaves no
other neighbours that share scope and context, and if scripts are kept whole, the
options that govern how fragments are joined make no difference to the scan. -/
theorem joins_only_statements (options : Options) (text : List Char) :
    (options.splitStatements = false → ∀ stitchWindow aggregate,
      ofText? (options.merging stitchWindow aggregate) text = ofText? options text) ∧
    (outline options text).fragments.IsChain fun f g =>
      f.Apart g ∨ AreStatements options text f g := by
  refine ⟨fun hwhole stitchWindow aggregate => ?_, isChain_outline options text⟩
  have hmerging : (options.merging stitchWindow aggregate).splitStatements = false := hwhole
  have hsame : ofText (options.merging stitchWindow aggregate) text = ofText options text := by
    rw [ofText_whole hwhole, ofText_whole hmerging, outline_merging]
  unfold ofText?
  rw [hsame]

/-- A script of two statements, which share scope and context if the script is cut. -/
theorem joins_only_statements_script :
    Options.standard.unsplit.splitStatements = false ∧
    ofText? (Options.standard.unsplit.merging 0 false) "script \x7b a;\n b \x7d".toList =
      ofText? Options.standard.unsplit "script \x7b a;\n b \x7d".toList ∧
    ∃ f ∈ (outline .standard "script \x7b a;\n b \x7d".toList).fragments,
      ∃ g ∈ (outline .standard "script \x7b a;\n b \x7d".toList).fragments,
        f.stop = g.start ∧ f.scope = g.scope ∧ f.context = g.context := by
  have hwhole : Options.standard.unsplit.splitStatements = false := rfl
  exact ⟨hwhole, (joins_only_statements _ _).1 hwhole 0 false, by decide +kernel⟩

end Scan

end Polyglot
