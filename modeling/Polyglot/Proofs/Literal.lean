-- SUMMARY: The literals of a fragment are stretches of its text, one behind the other.
import Polyglot.Proofs.Dialect
import Polyglot.Proofs.Operation
import Polyglot.Proofs.Scan

/-!
# Literals

Three readers note literals: one of local scripts, one of text blocks, one of
properties. Each notes a literal where its text stands and reads on behind it
(`Notes`), so the literals of a text are stretches of it, one after the other
(`Cursor.Holds`), and they begin in order (`InOrder`). To merge neighbours keeps both.
-/

namespace Polyglot

/-! ## Order -/

/-- The literals begin between two offsets, each before the next one. -/
structure InOrder (a b : Nat) (literals : List Literal) : Prop where
  within : ∀ l ∈ literals, a ≤ l.offset ∧ l.offset < b
  ordered : literals.Pairwise fun l m => l.offset < m.offset

namespace InOrder

variable {a b m : Nat} {ls ms : List Literal}

theorem nil (a b : Nat) : InOrder a b [] := ⟨by simp, .nil⟩

theorem singleton {l : Literal} (ha : a ≤ l.offset) (hb : l.offset < b) : InOrder a b [l] :=
  ⟨by simpa using ⟨ha, hb⟩, List.pairwise_singleton _ _⟩

theorem mono (h : InOrder a b ls) {a' b' : Nat} (ha : a' ≤ a) (hb : b ≤ b') : InOrder a' b' ls :=
  ⟨fun l hl => ⟨Nat.le_trans ha (h.within l hl).1, Nat.lt_of_lt_of_le (h.within l hl).2 hb⟩,
    h.ordered⟩

theorem append (h : InOrder a m ls) (k : InOrder m b ms) (ham : a ≤ m) (hmb : m ≤ b) :
    InOrder a b (ls ++ ms) where
  within := by
    intro l hl
    rcases List.mem_append.1 hl with hl | hl
    · exact (h.mono (Nat.le_refl a) hmb).within l hl
    · exact (k.mono ham (Nat.le_refl b)).within l hl
  ordered := by
    rw [List.pairwise_append]
    exact ⟨h.ordered, k.ordered,
      fun l hl x hx => Nat.lt_of_lt_of_le (h.within l hl).2 (k.within x hx).1⟩

end InOrder

/-! ## Stretches of a text -/

/-- The literals are stretches of the text from `c` to `d`, one behind the other. -/
inductive Cursor.Holds : Cursor → List Literal → Cursor → Prop where
  | nil {c d : Cursor} (reaches : c.Reaches d) : Holds c [] d
  | cons {c a b d : Cursor} {l : Literal} {ls : List Literal} (before : c.Reaches a)
      (offset : l.offset = a.offset) (read : a.Consumes l.text b) (text : l.text ≠ [])
      (more : Holds b ls d) : Holds c (l :: ls) d

namespace Cursor

variable {c d e : Cursor} {ls ms before result : List Literal}

theorem Holds.singleton {a b : Cursor} {l : Literal} (hca : c.Reaches a)
    (hoffset : l.offset = a.offset) (hread : a.Consumes l.text b) (htext : l.text ≠ [])
    (hbd : b.Reaches d) : c.Holds [l] d :=
  .cons hca hoffset hread htext (.nil hbd)

theorem Holds.reaches (h : c.Holds ls d) : c.Reaches d := by
  induction h with
  | nil reaches => exact reaches
  | cons before offset read text more ih => exact before.trans (Reaches.trans ⟨_, read⟩ ih)

theorem Holds.since (h : d.Holds ls e) (hcd : c.Reaches d) : c.Holds ls e := by
  cases h with
  | nil reaches => exact .nil (hcd.trans reaches)
  | cons before offset read text more => exact .cons (hcd.trans before) offset read text more

theorem Holds.append (h : c.Holds ls d) (k : d.Holds ms e) : c.Holds (ls ++ ms) e := by
  induction h with
  | nil reaches => exact k.since reaches
  | cons before offset read text _ ih => exact .cons before offset read text (ih k)

theorem Consumes.split {u v : List Char} (h : c.Consumes (u ++ v) d) :
    ∃ m, c.Consumes u m ∧ m.Consumes v d :=
  ⟨⟨c.position.advanceOver u, v ++ d.rest⟩, ⟨by rw [h.1, List.append_assoc], rfl⟩, rfl,
    by rw [h.2, Position.advanceOver_append]⟩

theorem Consumes.offset_eq {u : List Char} (h : c.Consumes u d) :
    d.offset = c.offset + byteLength u := by
  rw [offset, h.2, Position.advanceOver_offset]

/-- What stands in a text begins in it, in order. -/
theorem Holds.inOrder (h : c.Holds ls d) : InOrder c.offset d.offset ls := by
  induction h with
  | nil reaches => exact .nil _ _
  | @cons c a b d l ls before offset read text more ih =>
    have hca := before.offset_le
    have hab : a.offset < b.offset := by
      obtain ⟨ch, u, hu⟩ := List.exists_cons_of_ne_nil text
      exact StrictlyReaches.offset_lt ⟨ch, u, hu ▸ read⟩
    have hfirst : InOrder c.offset b.offset [l] := .singleton (by omega) (by omega)
    exact hfirst.append ih (by omega) more.reaches.offset_le

/-- Where each literal stands. -/
theorem Holds.exists_stretch (h : c.Holds ls d) {l : Literal} (hl : l ∈ ls) :
    ∃ a b, c.Reaches a ∧ l.offset = a.offset ∧ a.Consumes l.text b ∧ l.text ≠ [] ∧
      b.Reaches d := by
  induction h with
  | nil reaches => cases hl
  | @cons c a b d l ls before offset read text more ih =>
    rcases List.mem_cons.1 hl with rfl | hl
    · exact ⟨a, b, before, offset, read, text, more.reaches⟩
    · obtain ⟨a', b', hba, hstretch⟩ := ih hl
      exact ⟨a', b', before.trans (Reaches.trans ⟨_, read⟩ hba), hstretch⟩

/-- No literal reaches into the next one. -/
theorem Holds.pairwise (h : c.Holds ls d) :
    ls.Pairwise fun l m => l.offset + byteLength l.text ≤ m.offset := by
  induction h with
  | nil reaches => exact .nil
  | @cons c a b d l ls before offset read text more ih =>
    refine List.pairwise_cons.2 ⟨fun m hm => ?_, ih⟩
    have hend := read.offset_eq
    have hbehind := (more.inOrder.within m hm).1
    omega

/-- What stands in a text stands in it wherever other text follows. -/
theorem Holds.behind (h : c.Holds ls d) (r : List Char) :
    Holds ⟨c.position, c.rest ++ r⟩ ls ⟨d.position, d.rest ++ r⟩ := by
  have hread : ∀ {a b : Cursor} {u : List Char}, a.Consumes u b →
      Consumes ⟨a.position, a.rest ++ r⟩ u ⟨b.position, b.rest ++ r⟩ := by
    intro a b u hu
    exact ⟨by rw [hu.1, List.append_assoc], hu.2⟩
  have hreaches : ∀ {a b : Cursor}, a.Reaches b →
      Reaches ⟨a.position, a.rest ++ r⟩ ⟨b.position, b.rest ++ r⟩ := by
    rintro a b ⟨u, hu⟩
    exact ⟨u, hread hu⟩
  induction h with
  | nil reaches => exact .nil (hreaches reaches)
  | cons before offset read text _ ih =>
    exact .cons (hreaches before) offset (hread read) text ih

/-! ## Reading on -/

/-- From `c` to the end of its text, literals were noted one behind the other and put in
front of the earlier ones. -/
def Notes (c : Cursor) (before result : List Literal) : Prop :=
  ∃ more, result = more.reverse ++ before ∧ c.Holds more c.toEnd

theorem Notes.refl (c : Cursor) (before : List Literal) : c.Notes before before :=
  ⟨[], rfl, .nil c.reaches_toEnd⟩

theorem Notes.since (h : d.Notes before result) (hcd : c.Reaches d) : c.Notes before result := by
  obtain ⟨more, hresult, hmore⟩ := h
  refine ⟨more, hresult, ?_⟩
  rw [← hcd.toEnd_eq]
  exact hmore.since hcd

/-- A literal is noted between `c` and `d`. -/
theorem Notes.cons {l : Literal} (h : d.Notes (l :: before) result) (hl : c.Holds [l] d) :
    c.Notes before result := by
  obtain ⟨more, hresult, hmore⟩ := h
  refine ⟨l :: more, by simp [hresult], ?_⟩
  rw [← hl.reaches.toEnd_eq]
  exact hl.append hmore

theorem Notes.holds (h : c.Notes [] result) : c.Holds result.reverse c.toEnd := by
  obtain ⟨more, rfl, hmore⟩ := h
  simpa using hmore

/-! ## Properties -/

/-- What stands behind the name of a property that has a value. -/
theorem exists_of_property_eq_some {separators : List Char} {after : c.Later} {l : Literal}
    (h : (property separators after).1 = some l) :
    let gap := (after.eatWhile isPropertyNamePart).eatWhile isHorizontalBlank
    ∃ sep ∈ separators, ∃ blanks space first last, gap.cursor.Consumes (sep :: blanks) first ∧
      (∀ ch ∈ blanks, isHorizontalBlank ch) ∧ l.offset = first.offset ∧ l.text ≠ [] ∧
      first.Consumes l.text last ∧ (∀ ch ∈ space, isUnicodeSpace ch) ∧
      last.Consumes space (property separators after).2.cursor := by
  unfold property at h ⊢
  simp only at h ⊢
  generalize (after.eatWhile isPropertyNamePart).eatWhile isHorizontalBlank = gap at h ⊢
  split at h
  · next hcond =>
    rw [if_pos hcond]
    obtain ⟨sep, hhead, hmem⟩ := (Option.any_eq_true _ _).1 hcond
    obtain ⟨rest, hrest⟩ := List.head?_eq_some_iff.1 hhead
    have hsep : gap.cursor.Consumes [sep] gap.advance.cursor := consumes_advance hrest
    have hblanks := gap.advance.cursor.consumes_eatWhile isHorizontalBlank
    change gap.advance.cursor.Consumes _ (gap.advance.eatWhile isHorizontalBlank).cursor at hblanks
    generalize gap.advance.eatWhile isHorizontalBlank = first at h hblanks ⊢
    have hread := first.cursor.consumes_eatWhile fun ch => !isValueStop ch
    change first.cursor.Consumes _ (first.eatWhile fun ch => !isValueStop ch).cursor at hread
    generalize first.eatWhile (fun ch => !isValueStop ch) = stop at h hread ⊢
    unfold propertyValue at h
    simp only [hread.textTo_eq] at h
    split at h
    · cases h
    · next hvalue =>
      cases h
      obtain ⟨space, hspace, hspaces⟩ := exists_append_trimEnd
        (first.cursor.rest.takeWhile fun ch => !isValueStop ch)
      rw [hspace] at hread
      obtain ⟨last, hfirst, hlast⟩ := hread.split
      simp only [Bool.or_eq_true, List.isEmpty_iff, not_or] at hvalue
      exact ⟨sep, List.contains_iff_mem.1 hmem, _, space, first.cursor, last, hsep.trans hblanks,
        fun ch hch => List.all_eq_true.1 List.all_takeWhile ch hch, rfl, hvalue.2, hfirst, hspaces,
        hlast⟩
  · cases h

/-- The value of a property stands between its name and the end of the property. -/
theorem property_holds {separators : List Char} {after : c.Later} {l : Literal}
    (h : (property separators after).1 = some l) :
    c.Holds [l] (property separators after).2.cursor := by
  obtain ⟨sep, -, blanks, space, first, last, hgap, -, hoffset, htext, hread, -, hlast⟩ :=
    exists_of_property_eq_some h
  have hfirst : c.Reaches first := Reaches.trans (Later.reaches _) ⟨_, hgap⟩
  exact .singleton hfirst hoffset hread htext ⟨space, hlast⟩

theorem notes_valuesFrom (separators : List Char) (set : GuardSet) (fresh : Bool)
    (before : List Literal) (c : Cursor) :
    c.Notes before (valuesFrom separators set fresh before c) := by
  fun_induction valuesFrom separators set fresh before c with
  | case1 => exact .refl _ _
  | case2 => exact .refl _ _
  | case3 fresh before c kind after hfront ih => exact ih.since after.reaches
  | case4 fresh before c ch after hfront hspace ih => exact ih.since after.reaches
  | case5 fresh before c ch after hfront hspace hname p ih =>
    cases hvalue : p.1 with
    | none =>
      rw [hvalue] at ih
      exact ih.since p.2.reaches
    | some l =>
      rw [hvalue] at ih
      exact ih.cons (property_holds hvalue)
  | case6 fresh before c ch after hfront hspace hname ih => exact ih.since after.reaches

theorem holds_propertyLiterals (separators : List Char) (set : GuardSet) (c : Cursor) :
    c.Holds (c.propertyLiterals separators set) c.toEnd :=
  (notes_valuesFrom separators set true [] c).holds

end Cursor

/-! ## Text blocks -/

/-- The body of a text block stands in the block. -/
theorem holds_textLiteral (c : Cursor) : c.Holds (textLiteral c).toList c.toEnd := by
  obtain ⟨lead, hlead, -⟩ := exists_append_trimStart c.rest
  obtain ⟨tail, htail, -⟩ := exists_append_trimEnd (trimStart c.rest)
  have hlength : byteLength c.rest - byteLength (trimStart c.rest) = byteLength lead := by
    conv => lhs; arg 1; rw [hlead]
    rw [byteLength_append, Nat.add_sub_cancel]
  have hread : c.Consumes (lead ++ (trimEnd (trimStart c.rest) ++ tail)) c.toEnd := by
    rw [← htail, ← hlead]
    exact ⟨(List.append_nil _).symm, rfl⟩
  obtain ⟨first, hfirst, hread⟩ := hread.split
  obtain ⟨last, hbody, hlast⟩ := hread.split
  unfold textLiteral
  simp only [hlength]
  split
  · exact .nil c.reaches_toEnd
  · next ch body htext =>
    rw [htext] at hbody
    split
    · exact .nil c.reaches_toEnd
    · exact .singleton ⟨lead, hfirst⟩ hfirst.offset_eq.symm hbody (List.cons_ne_nil ch body)
        ⟨tail, hlast⟩

/-! ## Scripts -/

namespace FeatureScan

theorem literals_mark (s : State) (marker : Option Marker) :
    (s.mark marker).literals = s.literals := by
  cases marker <;> rfl

/-- A word is noted as a literal, or nothing is. -/
theorem literals_word (s : State) (c d : Cursor) : (s.word c d).literals = s.literals ∨
    (s.word c d).literals = ⟨c.offset, c.textTo d⟩ :: s.literals := by
  unfold State.word
  simp only [State.inside]
  generalize (if d.callFollows then Marker.ofCall? (String.ofList (c.textTo d)) else none) = call
  split
  · exact .inl (literals_mark s call)
  · split
    · exact .inl (literals_mark s _)
    · split
      · exact .inr rfl
      · exact .inl rfl

theorem notes_scanFrom (s : State) (c : Cursor) : c.Notes s.literals (scanFrom s c).literals := by
  fun_induction scanFrom s c with
  | case1 => exact .refl _ _
  | case2 => exact .refl _ _
  | case3 s c after hfront ih => exact ih.since after.reaches
  | case4 s c kind after hstring hfront ih => exact ih.since after.reaches
  | case5 s c ch after hfront hspace ih => exact ih.since after.reaches
  | case6 s c ch after hfront hspace hname past ih =>
    obtain hsame | hword := literals_word s c past.cursor
    · rw [hsame] at ih
      exact ih.since past.reaches
    · rw [hword] at ih
      obtain ⟨ch, text, hread⟩ := past.reached
      refine ih.cons (.singleton (.refl c) rfl ?_ ?_ (.refl _))
      · rw [hread.textTo_eq]
        exact hread
      · rw [hread.textTo_eq]
        exact List.cons_ne_nil ch text
  | case7 s c ch after hfront hspace hname past hselector ih =>
    exact ih.since past.reaches
  | case8 s c ch after hfront hspace hname hselector harrow ih =>
    exact ih.since after.advance.reaches
  | case9 s c ch after hfront hspace hname hselector harrow ih => exact ih.since after.reaches

theorem holds_ofCursor (c : Cursor) : c.Holds (ofCursor c).literals c.toEnd :=
  (notes_scanFrom _ c).holds

end FeatureScan

/-! ## Fragments -/

namespace Fragment

variable {P : Cursor → Prop} {c e : Cursor} {f : Fragment} {fs : List Fragment}

/-- The literals of a fragment begin in its text, in order. -/
def LiteralsInOrder (f : Fragment) : Prop := InOrder f.start.offset f.stop.offset f.literals

/-- The literals of a fragment are stretches of its text, one behind the other. -/
def HoldsLiterals (f : Fragment) : Prop := f.cursor.Holds f.literals f.cursor.toEnd

/-- The literals that classification notes stand in the text. -/
theorem holdsLiterals_classify (h : f.literals = []) : f.classify.HoldsLiterals := by
  have hscript := FeatureScan.holds_ofCursor f.cursor
  have htext := holds_textLiteral f.cursor
  have hproperties := fun separators set => f.cursor.holds_propertyLiterals separators set
  unfold classify
  split
  · exact hscript
  · exact htext
  · exact hproperties _ _
  · exact hproperties _ _
  · exact hproperties _ _
  · unfold HoldsLiterals
    rw [h]
    exact .nil f.cursor.reaches_toEnd

/-- The literals of a fragment stand in the document that it is cut from. -/
theorem HoldsLiterals.covers {d : Cursor} (h : f.HoldsLiterals) (hf : f.Covers c d) :
    c.Holds f.literals d := by
  have hbehind := h.behind d.rest
  have hstart : (⟨f.start, f.content ++ d.rest⟩ : Cursor) = c := by
    rw [hf.start, ← hf.read.1]
  have hstop : (⟨f.start.advanceOver f.content, d.rest⟩ : Cursor) = d := by
    rw [hf.start, ← hf.read.eq_mk]
  simpa [cursor, Cursor.toEnd, hstart, hstop] using hbehind

theorem HoldsLiterals.inOrder {d : Cursor} (h : f.HoldsLiterals) (hf : f.Covers c d) :
    f.LiteralsInOrder := by
  unfold LiteralsInOrder
  rw [hf.start, hf.stop]
  exact (h.covers hf).inOrder

/-- The literals of a tiling stand in its text if those of each fragment do. -/
theorem Tiles.holds (h : Tiles P c fs e) (hfs : ∀ f ∈ fs, f.HoldsLiterals) :
    c.Holds (fs.flatMap literals) e := by
  induction h with
  | nil c => exact .nil (.refl c)
  | @cons c d e f fs covers cut more ih =>
    rw [List.flatMap_cons]
    exact ((hfs f List.mem_cons_self).covers covers).append
      (ih fun g hg => hfs g (List.mem_cons_of_mem f hg))

/-- A tiling of a text is one wherever the text stands and whatever follows it. -/
theorem Tiles.elsewhere {c' e' : Cursor} (h : Tiles P c fs e) (hposition : c'.position = c.position)
    (hread : c'.Consumes (fs.map content).flatten e') : Tiles (fun _ => True) c' fs e' := by
  induction h generalizing c' with
  | nil c =>
    obtain rfl : e' = c' := hread.eq_of_nil
    exact .nil _
  | @cons c d e f fs covers cut more ih =>
    rw [List.map_cons, List.flatten_cons] at hread
    obtain ⟨m, hfirst, hmore⟩ := hread.split
    have hm : m.position = d.position := by rw [hfirst.2, hposition, covers.read.2]
    have hcovers : f.Covers c' m :=
      ⟨covers.start.trans hposition.symm, covers.stop.trans hm.symm, hfirst, covers.text⟩
    exact .cons hcovers trivial (ih hm hmore)

/-- To join a run keeps its literals where they stand. -/
theorem Tiles.holdsLiterals_joined (h : Tiles P c fs e) (hfs : ∀ f ∈ fs, f.HoldsLiterals)
    (hf : joined? fs = some f) : f.HoldsLiterals := by
  cases fs with
  | nil => cases hf
  | cons g more =>
    cases hf
    have hstart := (h.mergeRun 0).1.start
    have hread : (g.mergeRun more 0).cursor.Consumes ((g :: more).map content).flatten
        (g.mergeRun more 0).cursor.toEnd :=
      ⟨(List.append_nil _).symm, rfl⟩
    unfold HoldsLiterals
    rw [literals_mergeRun]
    exact (h.elsewhere hstart hread).holds hfs

end Fragment

namespace Scan

variable {options : Options} {text : List Char} {scan : Scan}

theorem holdsLiterals_work {u f : Fragment} (hu : u ∈ blocks options text)
    (hf : f ∈ work options u) : f.HoldsLiterals := by
  by_cases hcut : u.context = .scriptLocal ∧ options.splitStatements
  · have hu' := mem_blocks_unmerged hu
    obtain ⟨before, run, behind, hsplit, hjoined⟩ := exists_run hf
    have htiles := work_cuts hu' hcut.1
    have hparts : ∀ g ∈ work options.unmerged u, g.HoldsLiterals := by
      intro g hg
      have hholds := FeatureScan.holds_ofCursor g.cursor
      rwa [← (work_unmerged hu hcut.1 hg).2] at hholds
    rw [hsplit] at htiles hparts
    obtain ⟨b, hbefore, -⟩ := htiles.of_append
    obtain ⟨a, -, hrun⟩ := hbefore.of_append
    exact hrun.holdsLiterals_joined
      (fun g hg => hparts g (List.mem_append_left _ (List.mem_append_right _ hg))) hjoined
  · rw [work_of_not hcut, List.mem_singleton] at hf
    subst hf
    exact Fragment.holdsLiterals_classify (blocks_sound hu).unclassified.2

/-- The literals of each fragment of a scan stand in its text. -/
theorem holdsLiterals_fragments {f : Fragment} (hf : f ∈ (ofText options text).fragments) :
    f.HoldsLiterals := by
  obtain ⟨u, hu, hwork⟩ := exists_block hf
  have hholds : f.unnumbered.HoldsLiterals := holdsLiterals_work hu hwork
  exact hholds

/-- The literals of each fragment of a scan begin in its text, in order. -/
theorem literalsInOrder_fragments {f : Fragment} (hf : f ∈ (ofText options text).fragments) :
    f.LiteralsInOrder := by
  obtain ⟨e, -, htiles⟩ := fragments_tiles options text
  obtain ⟨a, b, hcovers, -⟩ := htiles.exists_covers hf
  exact (holdsLiterals_fragments hf).inOrder hcovers

/-! ## Literals in the document -/

/-- The literals of a fragment are spans of a document: none is empty, each is the text at
its offset and lies within the fragment, and none begins before the one in front of it ends. -/
structure LiteralsStand (text : List Char) (f : Fragment) : Prop where
  nonempty : ∀ l ∈ f.literals, l.text ≠ []
  slice : ∀ l ∈ f.literals,
    l.text = Passage.slice ⟨.start, text⟩ l.offset (l.offset + byteLength l.text)
  within : ∀ l ∈ f.literals,
    f.start.offset ≤ l.offset ∧ l.offset + byteLength l.text ≤ f.stop.offset
  ordered : f.literals.Pairwise fun l m => l.offset < m.offset
  disjoint : f.literals.Pairwise fun l m => l.offset + byteLength l.text ≤ m.offset

/-- The literals that every fragment of a scan ends up with are spans of the document in it. -/
theorem literalsStand_fragments (h : ofText? options text = .ok scan) :
    ∀ f ∈ scan.fragments, LiteralsStand text f := by
  obtain rfl := eq_ofText h
  intro f hf
  obtain ⟨e, hend, htiles⟩ := fragments_tiles options text
  obtain ⟨a, b, hcovers, -, -, hstart, hstop⟩ := htiles.exists_covers hf
  have hholds := (holdsLiterals_fragments hf).covers hcovers
  have horder := hholds.inOrder
  refine ⟨fun l hl => ?_, fun l hl => ?_, fun l hl => ?_, horder.ordered, hholds.pairwise⟩
  · obtain ⟨x, y, -, -, -, htext, -⟩ := hholds.exists_stretch hl
    exact htext
  · obtain ⟨x, y, hax, hoffset, hread, -, hyb⟩ := hholds.exists_stretch hl
    obtain ⟨u, hu⟩ := hstart.trans hax
    obtain ⟨v, hv⟩ := hyb.trans hstop
    have hsplit : text = u ++ l.text ++ v := by
      have := ((hu.trans hread).trans hv).1
      simpa [hend] using this
    have hplace : l.offset = Position.start.offset + byteLength u := hoffset.trans hu.offset_eq
    rw [hplace, hsplit]
    exact (Passage.slice_append .start u l.text v).symm
  · obtain ⟨x, y, hax, hoffset, hread, -, hyb⟩ := hholds.exists_stretch hl
    have hfirst := hax.offset_le
    have hread := hread.offset_eq
    have hlast := hyb.offset_le
    rw [hcovers.start, hcovers.stop]
    change a.offset ≤ l.offset ∧ l.offset + byteLength l.text ≤ b.offset
    omega

/-- A document with a literal of each kind. -/
theorem literalsStand_fragments_kinds : ∃ scan,
    ofText? .standard
      "p \x7b a: b; text \x7bc\x7d style \x7bd: e\x7d script \x7bf(\x7bg: h\x7d)\x7d \x7d".toList =
        .ok scan ∧
    (scan.fragments.flatMap Fragment.literals).map Literal.text = [['b'], ['c'], ['e'], ['h']] ∧
    ∀ f ∈ scan.fragments, LiteralsStand
      "p \x7b a: b; text \x7bc\x7d style \x7bd: e\x7d script \x7bf(\x7bg: h\x7d)\x7d \x7d".toList
      f := by
  let text :=
    "p \x7b a: b; text \x7bc\x7d style \x7bd: e\x7d script \x7bf(\x7bg: h\x7d)\x7d \x7d".toList
  have hscan : ofText? .standard text = .ok (ofText .standard text) :=
    ofText?_eq_ok .standard (by decide) (by decide)
  exact ⟨_, hscan, by decide +kernel, literalsStand_fragments hscan⟩

end Scan

end Polyglot
