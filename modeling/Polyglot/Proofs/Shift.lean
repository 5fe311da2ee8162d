-- SUMMARY: What becomes of a fragment does not depend on where in the document it stands.
import Polyglot.Proofs.Beside

/-!
# Fragments behind a byte order mark

`Fragment.behindMark` is a fragment whose document got a byte order mark in front. It is
classified, cut into statements, stitched and merged as before: every decision is made
on its text, and what is noted of it has shifted with it (`Scan.work_behindMark`).
-/

namespace Polyglot

open Cursor

/-! ## Local scripts -/

namespace FeatureScan

variable {c d c' d' : Cursor}

/-- What is known on the way through a script, with a byte order mark in front of it. -/
def State.behindMark (s : State) : State :=
  { s with literals := s.literals.map Literal.behindMark }

theorem item?_beside (h : c.Beside d) :
    Option.Rel (fun x y => x.1 = y.1 ∧ x.2.cursor.Beside y.2.cursor) (item? c) (item? d) := by
  unfold item?
  cases hfront : c.front .script with
  | finish =>
    rw [h.finish hfront]
    exact .none
  | openRegion issue atEnd =>
    obtain ⟨issue', atEnd', hd, -⟩ := h.openRegion hfront
    rw [hd]
    exact .none
  | region kind after =>
    obtain ⟨after', hd, hafter⟩ := h.region hfront
    rw [hd]
    cases kind <;> exact .some ⟨rfl, hafter⟩
  | code ch after =>
    obtain ⟨after', hd, hafter⟩ := h.code hfront
    rw [hd]
    simp only
    split
    · exact .some ⟨rfl, hafter⟩
    · split
      · exact .some ⟨rfl, hafter.move isNamePart⟩
      · have hselector := enhancedSelector?_agree h.agree
        generalize c.enhancedSelector? = a at hselector ⊢
        generalize d.enhancedSelector? = b at hselector ⊢
        cases hselector with
        | some hpast => exact .some ⟨rfl, h.of_agree hpast.1⟩
        | none =>
          simp only [h.startsWith]
          split
          · exact .some ⟨rfl, hafter.advance⟩
          · exact .some ⟨rfl, hafter⟩

theorem follows_beside (h : c.Beside d) : c.callFollows = d.callFollows ∧
    c.bindingFollows = d.bindingFollows ∧ c.valueEnds = d.valueEnds := by
  have hblank : c.skipBlank.Beside d.skipBlank := h.eatWhile isBlank
  have hspace : c.skipHorizontal.Beside d.skipHorizontal := h.eatWhile isHorizontalBlank
  refine ⟨?_, ?_, ?_⟩
  · simp only [callFollows, hblank.head]
  · simp only [bindingFollows, h.head, hblank.head]
  · simp only [valueEnds, hspace.head]

theorem marker?_beside (s : State) (word : List Char) (h : c.Beside d) :
    s.behindMark.marker? word d = s.marker? word c := by
  obtain ⟨hcall, hbinding, -⟩ := follows_beside h
  simp only [State.marker?, hcall, hbinding]
  rfl

theorem literal?_beside (s : State) (offset : Nat) (word : List Char) (h : c.Beside d) :
    s.behindMark.literal? (offset + 3) word d =
      (s.literal? offset word c).map Literal.behindMark := by
  obtain ⟨-, -, hvalue⟩ := follows_beside h
  rw [State.literal?, State.literal?, marker?_beside s word h, hvalue,
    apply_ite (Option.map Literal.behindMark)]
  rfl

theorem mark_behindMark (s : State) (a : Option Marker) :
    s.behindMark.mark a = (s.mark a).behindMark := by
  cases a <;> rfl

theorem note_behindMark (s : State) (l : Option Literal) :
    s.behindMark.note (l.map Literal.behindMark) = (s.note l).behindMark := by
  cases l <;> rfl

theorem read_beside (s : State) (item : Item) (h : c.Beside d) (h' : c'.Beside d') :
    s.behindMark.read d d' item = (s.read c c' item).behindMark := by
  cases item with
  | string | comment | space | selector | arrow | char => rfl
  | word =>
    have hoffset : d.offset = c.offset + 3 := h.position.offset
    simp only [State.read, word_eq, ← h.textTo h', marker?_beside s _ h', hoffset,
      literal?_beside s _ _ h', mark_behindMark, note_behindMark]
    rfl

theorem scanFrom_beside (s : State) (h : c.Beside d) :
    scanFrom s.behindMark d = (scanFrom s c).behindMark := by
  induction hn : c.rest.length using Nat.strong_induction_on generalizing s c d with
  | _ n ih =>
    have hitem := item?_beside h
    rw [scanFrom_eq, scanFrom_eq s]
    generalize item? c = a at hitem ⊢
    generalize item? d = b at hitem ⊢
    cases hitem with
    | none => rfl
    | @some x y hnext =>
      obtain ⟨item, past⟩ := x
      obtain ⟨item', past'⟩ := y
      obtain ⟨rfl, hpast⟩ := hnext
      simp only [read_beside s item h hpast]
      exact ih _ (hn ▸ past.length_lt) _ hpast rfl

/-- A script has the same markers behind a byte order mark, and its literals shift. -/
theorem ofCursor_beside (h : c.Beside d) :
    ofCursor d = ⟨(ofCursor c).features, (ofCursor c).literals.map Literal.behindMark⟩ := by
  have hscan := scanFrom_beside .initial h
  simp only [ofCursor, List.map_reverse]
  exact congrArg (fun s : State => FeatureScan.mk s.features s.literals.reverse) hscan

end FeatureScan

/-! ## Values without quotes -/

theorem textLiteral_beside {c d : Cursor} (h : c.Beside d) :
    textLiteral d = (textLiteral c).map Literal.behindMark := by
  have hoffset : d.offset = c.offset + 3 := h.position.offset
  simp only [textLiteral, ← h.rest, hoffset]
  split
  · rfl
  · split
    · rfl
    · simp [Literal.behindMark, Nat.add_right_comm]

namespace Cursor

variable {c d : Cursor}

theorem propertyValue_beside {c' d' : Cursor} (h : c.Beside d) (h' : c'.Beside d') :
    propertyValue d d' = (propertyValue c c').map Literal.behindMark := by
  have hoffset : d.offset = c.offset + 3 := h.position.offset
  simp only [propertyValue, ← h.textTo h', ← h'.head, hoffset]
  split <;> rfl

theorem property_beside (separators : List Char) {b b' : Cursor} {l : b.Later} {m : b'.Later}
    (h : l.cursor.Beside m.cursor) :
    (property separators m).1 = (property separators l).1.map Literal.behindMark ∧
      (property separators l).2.cursor.Beside (property separators m).2.cursor := by
  have hgap := (h.move isPropertyNamePart).move isHorizontalBlank
  have hfirst : ((((l.eatWhile isPropertyNamePart).eatWhile isHorizontalBlank).advance).eatWhile
      isHorizontalBlank).cursor.Beside ((((m.eatWhile isPropertyNamePart).eatWhile
        isHorizontalBlank).advance).eatWhile isHorizontalBlank).cursor :=
    hgap.advance.eatWhile isHorizontalBlank
  have hlast := hfirst.move (!isValueStop ·)
  simp only [property, hgap.head]
  split
  · exact ⟨propertyValue_beside hfirst hlast, hlast⟩
  · exact ⟨rfl, hgap⟩

theorem valuesFrom_beside (separators : List Char) (set : GuardSet) (fresh : Bool)
    (found : List Literal) (h : c.Beside d) :
    valuesFrom separators set fresh (found.map Literal.behindMark) d =
      (valuesFrom separators set fresh found c).map Literal.behindMark := by
  fun_induction valuesFrom separators set fresh found c generalizing d with
  | case1 fresh found c hfront =>
    rw [valuesFrom.eq_def, h.finish hfront]
  | case2 fresh found c issue atEnd hfront =>
    obtain ⟨issue', atEnd', hd, -⟩ := h.openRegion hfront
    rw [valuesFrom.eq_def, hd]
  | case3 fresh found c kind after hfront ih =>
    obtain ⟨after', hd, hafter⟩ := h.region hfront
    rw [valuesFrom.eq_def, hd]
    exact ih hafter
  | case4 fresh found c ch after hfront hspace ih =>
    obtain ⟨after', hd, hafter⟩ := h.code hfront
    rw [valuesFrom.eq_def, hd]
    simp only [if_pos hspace]
    exact ih hafter
  | case5 fresh found c ch after hfront hspace hname value =>
    rename_i ih
    obtain ⟨after', hd, hafter⟩ := h.code hfront
    obtain ⟨hvalue, hpast⟩ := property_beside separators hafter
    rw [valuesFrom.eq_def, hd]
    simp only [if_neg hspace, if_pos hname]
    have hfound : (property separators after').1.toList ++ found.map Literal.behindMark =
        (value.1.toList ++ found).map Literal.behindMark := by
      rw [hvalue, List.map_append, Option.toList_map]
    rw [hfound]
    exact ih hpast
  | case6 fresh found c ch after hfront hspace hname ih =>
    obtain ⟨after', hd, hafter⟩ := h.code hfront
    rw [valuesFrom.eq_def, hd]
    simp only [if_neg hspace, if_neg hname]
    exact ih hafter

theorem propertyLiterals_beside (separators : List Char) (set : GuardSet) (h : c.Beside d) :
    propertyLiterals separators set d =
      (propertyLiterals separators set c).map Literal.behindMark := by
  have hvalues := valuesFrom_beside separators set true [] h
  rw [List.map_nil] at hvalues
  rw [propertyLiterals, propertyLiterals, hvalues, List.map_reverse]

end Cursor

/-! ## Foreign syntax -/

theorem standsAlone_beside {c d : Cursor} (h : c.Beside d) (marker : String) :
    standsAlone c marker = standsAlone d marker := by
  rw [standsAlone, standsAlone, h.startsWith, h.rest]

theorem foreignFrom_beside (markers : List String) (set : GuardSet) (inName : Bool) {c d : Cursor}
    (h : c.Beside d) :
    Option.Rel (fun x y => x.1.Beside y.1 ∧ x.2 = y.2) (foreignFrom markers set inName c)
      (foreignFrom markers set inName d) := by
  induction hn : c.rest.length using Nat.strong_induction_on generalizing inName c d with
  | _ n ih =>
    cases hfront : c.front set with
    | finish =>
      rw [foreignFrom.eq_def _ _ _ c, foreignFrom.eq_def _ _ _ d, hfront, h.finish hfront]
      exact .none
    | openRegion issue atEnd =>
      obtain ⟨issue', atEnd', hd, -⟩ := h.openRegion hfront
      rw [foreignFrom.eq_def _ _ _ c, foreignFrom.eq_def _ _ _ d, hfront, hd]
      exact .none
    | region kind after =>
      obtain ⟨after', hd, hafter⟩ := h.region hfront
      rw [foreignFrom_region inName hfront, foreignFrom_region inName hd]
      exact ih _ (hn ▸ after.length_lt) false hafter rfl
    | code ch after =>
      obtain ⟨after', hd, hafter⟩ := h.code hfront
      have hsame : standsAlone d = standsAlone c := funext fun m => (standsAlone_beside h m).symm
      rw [foreignFrom_code inName hfront, foreignFrom_code inName hd, hsame]
      cases if inName then none else markers.find? (standsAlone c) with
      | some marker => exact .some ⟨h.position, rfl⟩
      | none => exact ih _ (hn ▸ after.length_lt) (isNamePart ch) hafter rfl

/-! ## Statements -/

theorem cutsFrom_beside (s : StatementState) {cuts cuts' : List Cursor} {c d : Cursor}
    (hcuts : List.Forall₂ Beside cuts cuts') (h : c.Beside d) :
    List.Forall₂ Beside (cutsFrom s cuts c) (cutsFrom s cuts' d) := by
  induction hn : c.rest.length using Nat.strong_induction_on generalizing s cuts cuts' c d with
  | _ n ih =>
    rw [cutsFrom.eq_def _ _ c, cutsFrom.eq_def _ _ d]
    cases hfront : c.front .script with
    | finish =>
      rw [h.finish hfront]
      exact hcuts
    | openRegion issue atEnd =>
      obtain ⟨issue', atEnd', hd, -⟩ := h.openRegion hfront
      rw [hd]
      exact hcuts
    | region kind after =>
      obtain ⟨after', hd, hafter⟩ := h.region hfront
      have hmore := fun s => ih _ (hn ▸ after.length_lt) s hcuts hafter rfl
      rw [hd]
      cases kind <;> exact hmore _
    | code ch after =>
      obtain ⟨after', hd, hafter⟩ := h.code hfront
      have hpast := hafter.move isNamePart
      have hmore : ∀ (s : StatementState) {cuts cuts' : List Cursor},
          List.Forall₂ Beside cuts cuts' → List.Forall₂ Beside (cutsFrom s cuts after.cursor)
            (cutsFrom s cuts' after'.cursor) :=
        fun s _ _ hcuts => ih _ (hn ▸ after.length_lt) s hcuts hafter rfl
      rw [hd]
      simp only [h.textTo hpast]
      split
      · split
        · split
          · exact hmore _ hcuts
          · exact hmore _ (.cons h hcuts)
        · exact hmore _ hcuts
      · split
        · exact ih _ (hn ▸ (after.eatWhile isNamePart).length_lt) _ hcuts hpast rfl
        · split
          · exact hmore _ (.cons hafter hcuts)
          · exact hmore _ hcuts

theorem statementCuts_beside {c d : Cursor} (h : c.Beside d) :
    List.Forall₂ Beside (statementCuts c) (statementCuts d) := by
  refine List.forall₂_reverse_iff.2 (List.rel_filter ?_ (cutsFrom_beside .initial .nil h))
  intro x y hxy
  simp only [Cursor.atEnd, hxy.rest]

theorem zip_beside {α : Type} {R : α → α → Prop} {as bs as' bs' : List α}
    (h : List.Forall₂ R as bs) (h' : List.Forall₂ R as' bs') :
    List.Forall₂ (fun x y => R x.1 y.1 ∧ R x.2 y.2) (as.zip as') (bs.zip bs') := by
  induction h generalizing as' bs' with
  | nil => exact .nil
  | cons hab _ ih =>
    cases h' with
    | nil => exact .nil
    | cons hab' h' => exact .cons ⟨hab, hab'⟩ (ih h')

/-- The stretches of a script lie beside each other. -/
theorem stretches_beside {c d : Cursor} (h : c.Beside d) :
    List.Forall₂ (fun x y => x.1.Beside y.1 ∧ x.2.Beside y.2)
      (c.stretches (statementCuts c)) (d.stretches (statementCuts d)) := by
  have hcuts := statementCuts_beside h
  exact zip_beside (.cons h hcuts) (List.rel_append hcuts (.cons h.toEnd .nil))

/-! ## Fragments -/

namespace Fragment

/-- A fragment of a document, with a byte order mark in front of the document. Its text, its
frame and its features stay, and so does the compiler that it is sent to. -/
def behindMark (f : Fragment) : Fragment :=
  { f with
    start := f.start.behindMark
    stop := f.stop.behindMark
    literals := f.literals.map Literal.behindMark }

/-- `g` is `f` behind a byte order mark. Lines are counted from one on. -/
structure Beside (f g : Fragment) : Prop where
  line : 0 < f.start.line
  place : g = f.behindMark

variable {f g f' g' : Fragment}

theorem Beside.cursor (h : f.Beside g) : f.cursor.Beside g.cursor := by
  obtain ⟨hline, rfl⟩ := h
  exact ⟨rfl, hline, rfl⟩

/-- Fragments beside each other are sent to the same compiler. -/
theorem target_behindMark (f : Fragment) : f.behindMark.target = f.target := rfl

theorem Beside.classify (h : f.Beside g) : f.classify.Beside g.classify := by
  have hcursor := h.cursor
  obtain ⟨hline, rfl⟩ := h
  obtain ⟨⟨context, nesting, parents, scope⟩, id, content, start, stop, features, literals,
    degraded⟩ := f
  replace hcursor : Cursor.Beside ⟨start, content⟩ ⟨start.behindMark, content⟩ := hcursor
  cases context with
  | scriptLocal =>
    refine ⟨hline, ?_⟩
    simp only [Fragment.classify, behindMark, Fragment.cursor, FeatureScan.ofCursor_beside hcursor]
  | textBlock =>
    refine ⟨hline, ?_⟩
    simp only [Fragment.classify, behindMark, Fragment.cursor, textLiteral_beside hcursor,
      Option.toList_map]
  | styleGlobal | styleLocal | elementBody =>
    refine ⟨hline, ?_⟩
    simp only [Fragment.classify, behindMark, Fragment.cursor,
      propertyLiterals_beside _ _ hcursor]
  | _ => exact ⟨hline, rfl⟩

/-! ## Stitching -/

theorem precedes_behindMark (f g : Fragment) :
    f.behindMark.precedes g.behindMark = f.precedes g := by
  have hseam : (f.behindMark.stop.offset = g.behindMark.start.offset) =
      (f.stop.offset = g.start.offset) := propext Nat.add_right_cancel_iff
  simp only [precedes, hseam]
  rfl

theorem mergeable_behindMark (f g : Fragment) :
    f.behindMark.mergeable g.behindMark = f.mergeable g := by
  rw [mergeable, mergeable, precedes_behindMark, target_behindMark, target_behindMark]

theorem Beside.merge (h : f.Beside g) (h' : f'.Beside g') : (f.merge f').Beside (g.merge g') := by
  obtain ⟨hline, rfl⟩ := h
  obtain ⟨-, rfl⟩ := h'
  refine ⟨hline, ?_⟩
  simp [Fragment.merge, behindMark]

theorem Beside.shift (h : f.Beside g) (h' : f'.Beside g') (moved : List Char) :
    (f.shift f' moved).1.Beside (g.shift g' moved).1 ∧
      (f.shift f' moved).2.Beside (g.shift g' moved).2 := by
  have hboundary := h'.cursor.position.advanceOver moved
  obtain ⟨hline, rfl⟩ := h
  obtain ⟨-, rfl⟩ := h'
  refine ⟨⟨hline, ?_⟩, ⟨hboundary.line, ?_⟩⟩
  · simp only [Fragment.shift, behindMark, Fragment.mk.injEq, true_and, and_true]
    exact hboundary.place
  · simp only [Fragment.shift, behindMark, Fragment.mk.injEq, true_and, and_true]
    exact hboundary.place

/-- Every boundary is decided by texts alone. -/
theorem Beside.stitch (h : f.Beside g) (h' : f'.Beside g') (window : Nat) :
    (f.stitch window f').1.Beside (g.stitch window g').1 ∧
      Option.Rel Beside (f.stitch window f').2 (g.stitch window g').2 := by
  have hprecedes : g.precedes g' = f.precedes f' := by
    rw [h.place, h'.place, precedes_behindMark]
  have hbetween : Boundary.between window g g' = Boundary.between window f f' := by
    rw [h.place, h'.place]
    rfl
  unfold Fragment.stitch
  rw [hprecedes, hbetween]
  split
  · split
    · exact ⟨h, .some h'⟩
    · exact ⟨h.merge h', .none⟩
    · next moved _ =>
      obtain ⟨hfirst, hsecond⟩ := h.shift h' moved
      exact ⟨hfirst, .some hsecond⟩
  · exact ⟨h, .some h'⟩

theorem stitchNext_beside (window : Nat) {done done' : List Fragment}
    (hdone : List.Forall₂ Beside done done') (h : f.Beside g) :
    List.Forall₂ Beside (stitchNext window done f) (stitchNext window done' g) := by
  cases hdone with
  | nil => exact .cons h .nil
  | @cons x y done done' hlast hdone =>
    obtain ⟨hfirst, hsecond⟩ := hlast.stitch h window
    simp only [stitchNext]
    generalize x.stitch window f = a at hfirst hsecond ⊢
    generalize y.stitch window g = b at hfirst hsecond ⊢
    obtain ⟨x', a⟩ := a
    obtain ⟨y', b⟩ := b
    cases hsecond with
    | none => exact .cons hfirst hdone
    | some hsecond => exact .cons hsecond (.cons hfirst hdone)

theorem stitchAll_beside (window : Nat) {fs gs : List Fragment} (h : List.Forall₂ Beside fs gs) :
    List.Forall₂ Beside (stitchAll window fs) (stitchAll window gs) := by
  suffices ∀ {done done'}, List.Forall₂ Beside done done' →
      List.Forall₂ Beside (fs.foldl (stitchNext window) done)
        (gs.foldl (stitchNext window) done') from List.forall₂_reverse_iff.2 (this .nil)
  induction h with
  | nil => exact fun hdone => hdone
  | cons hfg _ ih => exact fun hdone => ih (stitchNext_beside window hdone hfg)

/-! ## Assembling -/

theorem eq_map_of_beside {fs gs : List Fragment} (h : List.Forall₂ Beside fs gs) :
    gs = fs.map behindMark := by
  induction h with
  | nil => rfl
  | cons hfg _ ih => rw [hfg.place, ih, List.map_cons]

theorem joined?_behindMark (run : List Fragment) :
    joined? (run.map behindMark) = (joined? run).map behindMark := by
  cases run with
  | nil => rfl
  | cons f more =>
    have hliterals : literals ∘ behindMark = List.map Literal.behindMark ∘ literals := rfl
    have hcontent : content ∘ behindMark = content := rfl
    have hlast : (more.map behindMark).getLastD f.behindMark = (more.getLastD f).behindMark := by
      rw [List.getLastD_eq_getLast?, List.getLastD_eq_getLast?, List.getLast?_map,
        Option.getD_map]
    simp only [List.map_cons, joined?, mergeRun, hlast, List.map_map, hcontent, hliterals,
      List.foldl_map, Option.map_some]
    simp only [behindMark, List.map_append, List.map_flatten, List.map_map]

/-- What becomes of fragments depends on their texts alone. -/
theorem assemble_beside (options : Options) {fs gs : List Fragment}
    (h : List.Forall₂ Beside fs gs) :
    assemble options gs = (assemble options fs).map behindMark := by
  have hclassified : List.Forall₂ Beside ((stitchAll options.stitchWindow fs).map classify)
      ((stitchAll options.stitchWindow gs).map classify) :=
    List.rel_map (fun _ _ hfg => hfg.classify) (stitchAll_beside options.stitchWindow h)
  have hjoined : joined? ∘ List.map behindMark = Option.map behindMark ∘ joined? :=
    funext joined?_behindMark
  unfold assemble
  simp only [eq_map_of_beside hclassified, splitBy_map behindMark mergeable_behindMark]
  split
  · rw [List.filterMap_map, hjoined, List.map_filterMap]
    rfl
  · simp only [List.map_map]
    rfl

/-! ## Blocks -/

theorem Beside.part? (h : f.Beside g) {c d c' d' : Cursor} (hc : c.Beside d)
    (hc' : c'.Beside d') : Option.Rel Beside (f.part? c c') (g.part? d d') := by
  obtain ⟨-, rfl⟩ := h
  unfold Fragment.part?
  rw [hc.textTo hc']
  split
  · exact .none
  · refine .some ⟨hc.position.line, ?_⟩
    simp only [behindMark, hc.position.place, hc'.position.place]

theorem Beside.statements (h : f.Beside g) :
    List.Forall₂ Beside f.statements g.statements :=
  List.rel_filterMap (fun _ _ hxy => h.part? hxy.1 hxy.2) (stretches_beside h.cursor)

theorem Beside.pieces (h : f.Beside g) (options : Options) :
    List.Forall₂ Beside (f.pieces options) (g.pieces options) := by
  have hcontext : g.context = f.context := by
    rw [h.place]
    rfl
  unfold Fragment.pieces
  rw [hcontext]
  split
  · exact h.statements
  · exact .cons ⟨h.line, by rw [h.place]; rfl⟩ .nil

theorem Beside.work (h : f.Beside g) (options : Options) :
    Scan.work options g = (Scan.work options f).map behindMark :=
  assemble_beside options (h.pieces options)

end Fragment

/-- The same kind of warning, behind a byte order mark. The message may tell a place. -/
structure ScanWarning.Beside (v w : ScanWarning) : Prop where
  kind : w.kind = v.kind
  position : v.position.Beside w.position

theorem Fragment.Beside.remark? {f g : Fragment} (h : f.Beside g) :
    Option.Rel ScanWarning.Beside f.remark? g.remark? := by
  have hcontext : g.context = f.context := by
    rw [h.place]
    rfl
  have hforeign : Option.Rel (fun x y => x.1.Beside y.1 ∧ x.2 = y.2) f.foreignSyntax
      g.foreignSyntax := by
    unfold Fragment.foreignSyntax
    rw [hcontext]
    split
    · exact .none
    · exact foreignFrom_beside _ _ false h.cursor
  unfold Fragment.remark?
  generalize f.foreignSyntax = a at hforeign ⊢
  generalize g.foreignSyntax = b at hforeign ⊢
  cases hforeign with
  | none => exact .none
  | some hfound => exact .some ⟨rfl, hfound.1⟩

end Polyglot
