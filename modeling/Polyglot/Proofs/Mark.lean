-- SUMMARY: A byte order mark in front of a document shifts what a scan finds and adds one warning.
import Polyglot.Proofs.Frame
import Polyglot.Proofs.Simulation

/-!
# Documents with a byte order mark

A byte order mark shifts what a scan finds and adds one warning (`Scan.transparent_mark`).
The structural passes agree but for the first run, and what is done with each block
afterwards does not look at where it stands. So the mark is in front of the first fragment
if that fragment is global, and a fragment of its own if not.
-/

namespace Polyglot

/-! ## Encoding -/

/-- The same kind of finding, behind a byte order mark. -/
structure EncodingIssue.Beside (i j : EncodingIssue) : Prop where
  kind : j.kind = i.kind
  position : i.position.Beside j.position

theorem EncodingIssue.nullsFrom_beside {p q : Position} (h : p.Beside q) (text : List Char)
    {found found' : List EncodingIssue} (hfound : List.Forall₂ Beside found found') :
    List.Forall₂ Beside (nullsFrom p text found) (nullsFrom q text found') := by
  induction text generalizing p q found found' with
  | nil => exact List.forall₂_reverse_iff.2 hfound
  | cons ch text ih =>
    refine ih (h.advance ch) ?_
    split
    · exact .cons ⟨rfl, h⟩ hfound
    · exact hfound

namespace Scan

variable {options : Options} {text : List Char}

/-- The mark is found first, and then what is found without it. -/
theorem encodingRemarks_beside (hmark : text.head? ≠ some EncodingIssue.byteOrderMark)
    (hsize : byteLength (EncodingIssue.byteOrderMark :: text) ≤ EncodingIssue.sizeLimit) :
    (encodingRemarks text .empty).Beside
      (encodingRemarks (EncodingIssue.byteOrderMark :: text) .empty) := by
  obtain ⟨herrors, hwarnings⟩ := encodingRemarks_eq text .empty
  obtain ⟨herrors', hwarnings'⟩ :=
    encodingRemarks_eq (EncodingIssue.byteOrderMark :: text) .empty
  have hlimit : byteLength text ≤ EncodingIssue.sizeLimit := by
    rw [byteLength_cons] at hsize
    omega
  have hall : EncodingIssue.all text = EncodingIssue.nullCharacters text := by
    rw [EncodingIssue.all, if_neg (Nat.not_lt_of_le hlimit)]
    simp [hmark]
  have hall' : EncodingIssue.all (EncodingIssue.byteOrderMark :: text) =
      ⟨.byteOrderMark, .start, 3⟩ ::
        EncodingIssue.nullsFrom (Position.start.advance EncodingIssue.byteOrderMark) text [] := by
    rw [EncodingIssue.all, if_neg (Nat.not_lt_of_le hsize)]
    rfl
  have hnulls := EncodingIssue.nullsFrom_beside Position.beside_start text .nil
  refine ⟨?_, _, hwarnings'.trans (by rw [hall', List.map_cons]; rfl), ?_⟩
  · rw [herrors, herrors']
    exact .nil
  · rw [hwarnings, hall]
    exact List.rel_map (fun _ _ hij => ⟨rfl, hij.position⟩) hnulls

theorem ofText_ends (options : Options) {log log' : Log}
    (hmark : text.head? ≠ some EncodingIssue.byteOrderMark) (hlog : log.Beside log') :
    (Outline.ofText options.unsplit text log).Ends
      (Outline.ofText options.unsplit (EncodingIssue.byteOrderMark :: text) log') := by
  have hstate : (Outline.initial ⟨.start, text⟩ log).Beside text
      (Outline.initial ⟨.start, EncodingIssue.byteOrderMark :: text⟩ log') :=
    ⟨⟨.nil, rfl⟩, rfl, rfl, rfl, hlog, .before ⟨rfl, rfl⟩ rfl rfl rfl⟩
  have hfirst : Cursor.Beside ⟨.start, text⟩
      ⟨Position.start.advance EncodingIssue.byteOrderMark, text⟩ := ⟨rfl, Position.beside_start⟩
  have hwhole : options.unsplit.splitStatements = false := rfl
  have hwalk := hstate.walk hwhole (.refl _) hfirst
  unfold Outline.ofText
  simp only [if_neg hmark]
  exact hwalk

/-! ## What becomes of the blocks -/

theorem beside_block {u : Fragment} (hu : u ∈ blocks options text) : u.Beside u.behindMark := by
  obtain ⟨e, -, htiles⟩ := blocks_tiles options text
  obtain ⟨a, b, hcovers, -, -, ⟨v, hv⟩, -⟩ := htiles.exists_covers hu
  refine ⟨?_, rfl⟩
  rw [hcovers.start, hv.2]
  exact (Position.beside_start.advanceOver v).line

theorem beside_work {u f : Fragment} (hu : u ∈ blocks options text) (hf : f ∈ work options u) :
    f.Beside f.behindMark := by
  obtain ⟨P, htiles⟩ := work_tiles hu
  obtain ⟨a, b, hcovers, -, -, ⟨v, hv⟩, -⟩ := htiles.exists_covers hf
  have hcursor := (beside_block hu).cursor
  refine ⟨?_, rfl⟩
  rw [hcovers.start, hv.2]
  exact (hcursor.position.advanceOver v).line

/-- Global text is neither cut nor classified. -/
theorem work_global {u : Fragment} (h : u.context = .global) : work options u = [u.unnumbered] := by
  have hclassify : u.classify = u := by
    unfold Fragment.classify
    rw [h]
  rw [work_of_not (by simp [h]), hclassify]

theorem root_of_global {u : Fragment} (hu : u ∈ blocks options text) (h : u.context = .global) :
    u.scope = Scope.root := by
  obtain ⟨pool, bound, hcoherent, hemitted⟩ :=
    Outline.pooled_ofText options.unsplit text (encodingRemarks text .empty)
  have hdegraded : u.degraded = false := by
    cases hraw : u.degraded with
    | false => rfl
    | true =>
      have := (blocks_sound hu).raw hraw
      rw [h] at this
      cases this
  have hfits := hemitted u (List.mem_reverse.1 hu)
  exact (hcoherent.placed _ (hfits.known hdegraded)).root.1 h

theorem flatMap_behindMark {us : List Fragment} (h : ∀ u ∈ us, u.Beside u.behindMark) :
    (us.map Fragment.behindMark).flatMap (work options) =
      (us.flatMap (work options)).map Fragment.behindMark := by
  rw [List.flatMap_map, List.map_flatMap]
  exact List.flatMap_congr fun u hu => (h u hu).work options

/-- The blocks of the two documents are the same, but for the mark. -/
theorem blocks_marked (options : Options)
    (hmark : text.head? ≠ some EncodingIssue.byteOrderMark)
    (hsize : byteLength (EncodingIssue.byteOrderMark :: text) ≤ EncodingIssue.sizeLimit) :
    Fragment.Marked ((blocks options text).map Fragment.unnumbered)
      ((blocks options (EncodingIssue.byteOrderMark :: text)).map Fragment.unnumbered) ∧
    (outlineLog options text).Beside
      (outlineLog options (EncodingIssue.byteOrderMark :: text)) := by
  obtain ⟨hemits, hlog⟩ := ofText_ends options hmark (encodingRemarks_beside hmark hsize)
  exact ⟨hemits, hlog⟩

/-- A block that stays apart from the mark is not global. -/
theorem ne_global_of_apart {u : Fragment} (hu : u ∈ blocks options text)
    (h : Fragment.loneMark.Apart u) : u.context ≠ .global :=
  fun hglobal => h ⟨(root_of_global hu hglobal).symm, hglobal.symm⟩

/-- What becomes of the first block is not global if the block is not. -/
theorem head?_flatMap_work {us : List Fragment} (hus : us ⊆ blocks options text)
    (hhead : ∀ u ∈ us.head?, u.context ≠ .global) :
    ∀ f ∈ (us.flatMap (work options)).head?, f.context ≠ .global := by
  cases us with
  | nil =>
    intro f hf
    cases hf
  | cons u us =>
    have hu := hus List.mem_cons_self
    intro f hf
    rw [List.flatMap_cons, List.head?_append_of_ne_nil _ (work_ne_nil hu)] at hf
    have hsame := congrArg Frame.context (kin_work hu (List.mem_of_mem_head? hf)).1
    rw [← hsame]
    exact hhead u rfl

theorem withMark_of_not {fs : List Fragment} (h : ∀ f ∈ fs.head?, f.context ≠ .global) :
    Fragment.withMark fs = Fragment.loneMark :: fs.map Fragment.behindMark := by
  cases fs with
  | nil => rfl
  | cons f fs => exact if_neg (h f rfl)

theorem fragments_marked (options : Options)
    (hmark : text.head? ≠ some EncodingIssue.byteOrderMark)
    (hsize : byteLength (EncodingIssue.byteOrderMark :: text) ≤ EncodingIssue.sizeLimit) :
    (ofText options (EncodingIssue.byteOrderMark :: text)).fragments.map Fragment.unnumbered =
      Fragment.withMark ((ofText options text).fragments.map Fragment.unnumbered) := by
  have hblocks := (blocks_marked options hmark hsize).1
  have hapart := blocks_apart options (EncodingIssue.byteOrderMark :: text)
  have hwork : ∀ us : List Fragment,
      us.flatMap (work options) = (us.map Fragment.unnumbered).flatMap (work options) :=
    fun us => by rw [List.flatMap_map]; rfl
  have hbeside : ∀ u ∈ (blocks options text).map Fragment.unnumbered, u.Beside u.behindMark := by
    intro u hu
    obtain ⟨v, hv, rfl⟩ := List.mem_map.1 hu
    exact ⟨(beside_block hv).line, rfl⟩
  have hchain : ((blocks options (EncodingIssue.byteOrderMark :: text)).map
      Fragment.unnumbered).IsChain Fragment.Apart := by
    rw [List.isChain_map]
    exact hapart
  rw [fragments_eq, fragments_eq, hwork (blocks options (EncodingIssue.byteOrderMark :: text))]
  generalize (blocks options (EncodingIssue.byteOrderMark :: text)).map Fragment.unnumbered = us'
    at hblocks hchain ⊢
  generalize hus : (blocks options text).map Fragment.unnumbered = us at hblocks hbeside
  rw [hwork (blocks options text), hus]
  cases hblocks with
  | @joined u more global =>
    have hmarked : u.marked.context = .global := global
    rw [List.flatMap_cons, List.flatMap_cons, work_global global, work_global hmarked,
      flatMap_behindMark fun v hv => hbeside v (List.mem_cons_of_mem u hv)]
    exact (if_pos global).symm
  | apart =>
    have hlone : work options Fragment.loneMark = [Fragment.loneMark] := work_global rfl
    have hhead : ∀ u ∈ (blocks options text).head?, u.context ≠ .global := by
      intro u hu
      obtain ⟨more, hmore⟩ := List.head?_eq_some_iff.1 hu
      rw [← hus, hmore, List.map_cons, List.map_cons] at hchain
      have hfirst : Fragment.loneMark.Apart u := (List.isChain_cons_cons.1 hchain).1
      exact ne_global_of_apart (hmore ▸ List.mem_cons_self) hfirst
    rw [List.flatMap_cons, hlone, flatMap_behindMark hbeside, ← hus, ← hwork,
      withMark_of_not (head?_flatMap_work (List.Subset.refl _) hhead)]
    rfl

/-! ## Foreign syntax -/

theorem remark?_global {f : Fragment} (h : f.context = .global) : f.remark? = none := by
  unfold Fragment.remark? Fragment.foreignSyntax
  rw [h]
  rfl

theorem remarks_withMark {fs : List Fragment} (h : ∀ f ∈ fs, f.Beside f.behindMark) :
    List.Forall₂ ScanWarning.Beside (fs.filterMap Fragment.remark?)
      ((Fragment.withMark fs).filterMap Fragment.remark?) := by
  have hmap : ∀ fs : List Fragment, (∀ f ∈ fs, f.Beside f.behindMark) →
      List.Forall₂ ScanWarning.Beside (fs.filterMap Fragment.remark?)
        ((fs.map Fragment.behindMark).filterMap Fragment.remark?) := by
    intro fs hfs
    refine List.rel_filterMap (R := Fragment.Beside) (fun _ _ hfg => hfg.remark?) ?_
    rw [List.forall₂_map_right_iff, List.forall₂_same]
    exact hfs
  have hlone : Fragment.loneMark.remark? = none := remark?_global rfl
  cases fs with
  | nil => simp [Fragment.withMark, hlone]
  | cons f fs =>
    by_cases hglobal : f.context = .global
    · have hmarked : f.marked.context = .global := hglobal
      rw [Fragment.withMark, if_pos hglobal, List.filterMap_cons_none (remark?_global hglobal),
        List.filterMap_cons_none (remark?_global hmarked)]
      exact hmap fs fun g hg => h g (List.mem_cons_of_mem f hg)
    · rw [Fragment.withMark, if_neg hglobal, List.filterMap_cons_none hlone]
      exact hmap _ h

theorem beside_fragment {f : Fragment}
    (hf : f ∈ (ofText options text).fragments.map Fragment.unnumbered) :
    f.Beside f.behindMark := by
  rw [fragments_eq] at hf
  obtain ⟨u, hu, hwork⟩ := List.mem_flatMap.1 hf
  exact beside_work hu hwork

/-! ## The whole scan -/

/-- `marked` is found in a document with a byte order mark where `plain` is found in the
document without: the same fragments up to their numbers, and the same findings. -/
structure Transparent (plain marked : Scan) : Prop where
  fragments : marked.fragments.map Fragment.unnumbered =
    Fragment.withMark (plain.fragments.map Fragment.unnumbered)
  log : plain.log.Beside marked.log

/-- A byte order mark is transparent to the scan. Only a document that the mark makes too
large to address is refused. -/
theorem transparent_mark (options : Options) {text : List Char} (htext : text ≠ [])
    (hmark : text.head? ≠ some EncodingIssue.byteOrderMark) :
    (EncodingIssue.sizeLimit < byteLength (EncodingIssue.byteOrderMark :: text) ∧
      ofText? options (EncodingIssue.byteOrderMark :: text) = .error .oversizedInput) ∨
    ∃ plain marked, ofText? options text = .ok plain ∧
      ofText? options (EncodingIssue.byteOrderMark :: text) = .ok marked ∧
      plain.Transparent marked := by
  have hne : EncodingIssue.byteOrderMark :: text ≠ [] := List.cons_ne_nil _ _
  rcases Nat.lt_or_ge EncodingIssue.sizeLimit
    (byteLength (EncodingIssue.byteOrderMark :: text)) with hlarge | hsize
  · have hoversized : EncodingIssue.isOversized (EncodingIssue.byteOrderMark :: text) = true := by
      rw [EncodingIssue.isOversized, EncodingIssue.all, if_pos hlarge]
      rfl
    exact .inl ⟨hlarge, by simp [ofText?, hoversized]⟩
  · have hlimit : byteLength text ≤ EncodingIssue.sizeLimit := by
      rw [byteLength_cons] at hsize
      omega
    refine .inr ⟨_, _, ofText?_eq_ok options htext hlimit, ofText?_eq_ok options hne hsize,
      fragments_marked options hmark hsize, ?_⟩
    obtain ⟨herrors, hwarnings⟩ := log_eq options text
    obtain ⟨herrors', hwarnings'⟩ := log_eq options (EncodingIssue.byteOrderMark :: text)
    refine (blocks_marked options hmark hsize).2.append herrors herrors' hwarnings hwarnings' ?_
    rw [← List.filterMap_flatMap, ← List.filterMap_flatMap, ← blocks_unmerged,
      ← blocks_unmerged options (EncodingIssue.byteOrderMark :: text), ← fragments_eq,
      ← fragments_eq, fragments_marked options.unmerged hmark hsize]
    exact remarks_withMark fun f hf => beside_fragment hf

/-- A document that begins with a declaration, so that the mark stands alone. It has an
error and a warning. -/
theorem transparent_mark_header :
    let text := "[Template] @Style T \x7b\x7d \x7d style \x7b a: b; function \x7d".toList
    text ≠ [] ∧ text.head? ≠ some EncodingIssue.byteOrderMark ∧
    ∃ plain marked, ofText? .standard text = .ok plain ∧
      ofText? .standard (EncodingIssue.byteOrderMark :: text) = .ok marked ∧
      plain.Transparent marked ∧ marked.fragments.length = plain.fragments.length + 1 ∧
      plain.log.errors.length = 1 ∧ plain.log.warnings.length = 1 := by
  intro text
  have htext : text ≠ [] := by decide
  have hmark : text.head? ≠ some EncodingIssue.byteOrderMark := by decide
  have hsmall : ¬ EncodingIssue.sizeLimit < byteLength (EncodingIssue.byteOrderMark :: text) := by
    decide
  obtain ⟨plain, marked, hplain, hmarked, htransparent⟩ :=
    (transparent_mark .standard htext hmark).resolve_left fun hlarge => hsmall hlarge.1
  obtain rfl := eq_ofText hplain
  obtain rfl := eq_ofText hmarked
  refine ⟨htext, hmark, _, _, hplain, hmarked, htransparent, ?_⟩
  decide +kernel

end Scan

end Polyglot
