-- SUMMARY: The minimal units of a scan divide its fragments without loss.
import Polyglot.Proofs.Literal

/-!
# Minimal units

Tokens begin one behind the other, whatever the target is, since every piece that is
read moves on. So the units of a fragment tile it (`Fragment.tiles_minimalUnits`), and
each of its literals begins in exactly one of them (`Fragment.divides_minimalUnits`).
-/

namespace Polyglot

/-! ## Tokens -/

namespace Target

/-- The tokens found from a cursor on stand behind it, in order. -/
theorem tokensFrom_spec (target : Target) (set : GuardSet) (found : List Cursor) (c : Cursor) :
    ∃ more, tokensFrom target set found c = more.reverse ++ found ∧
      (c :: more).Pairwise Cursor.Reaches := by
  have hsince : ∀ {c d : Cursor} {more : List Cursor}, c.Reaches d →
      (d :: more).Pairwise Cursor.Reaches → (c :: more).Pairwise Cursor.Reaches := by
    intro c d more hcd horder
    obtain ⟨hmore, horder⟩ := List.pairwise_cons.1 horder
    exact List.pairwise_cons.2 ⟨fun x hx => hcd.trans (hmore x hx), horder⟩
  fun_induction tokensFrom target set found c with
  | case1 found c hpiece => exact ⟨[], rfl, List.pairwise_singleton _ _⟩
  | case2 found c after hpiece ih =>
    obtain ⟨more, hresult, horder⟩ := ih
    exact ⟨more, hresult, hsince after.reaches horder⟩
  | case3 found c after hpiece ih =>
    obtain ⟨more, hresult, horder⟩ := ih
    have hfrom := hsince after.reaches horder
    refine ⟨c :: more, by simp [hresult], List.pairwise_cons.2 ⟨fun x hx => ?_, hfrom⟩⟩
    rcases List.mem_cons.1 hx with rfl | hx
    · exact .refl x
    · exact (List.pairwise_cons.1 hfrom).1 x hx

/-- The cuts between the units of a text stand in order. -/
theorem pairwise_unitCuts (target : Target) (set : GuardSet) (c : Cursor) :
    (c :: target.unitCuts set c).Pairwise Cursor.Reaches := by
  obtain ⟨more, hresult, horder⟩ := tokensFrom_spec target set [] c
  have hcuts : target.unitCuts set c = more.drop 1 := by
    rw [unitCuts, hresult, List.append_nil, List.reverse_reverse]
  rw [hcuts]
  exact horder.sublist ((List.drop_sublist 1 more).cons_cons c)

end Target

namespace Fragment

variable {P : Cursor → Prop} {c e : Cursor} {f u : Fragment} {units : List Fragment}

/-! ## Parts of a fragment -/

/-- The unit is a part of the fragment: it has its frame, its features and its state, and
those of its literals that begin in the unit. -/
structure IsPart (f u : Fragment) : Prop where
  kin : f.Kin u
  features : u.features = f.features
  literals : u.literals =
    f.literals.filter fun l => u.start.offset ≤ l.offset && l.offset < u.stop.offset

theorem IsPart.target (h : f.IsPart u) : u.target = f.target := by
  obtain ⟨⟨hframe, -⟩, hfeatures, -⟩ := h
  unfold Fragment.target
  rw [hfeatures, ← hframe]

theorem isPart_part (f : Fragment) (c d : Cursor) (id : FragmentId) :
    f.IsPart { f.part c d with id := id } := ⟨⟨rfl, rfl⟩, rfl, rfl⟩

/-- The stretch of a fragment as a part that keeps all literals. -/
def whole (f u : Fragment) : Fragment := { u with id := 0, literals := f.literals }

theorem part?_eq (f : Fragment) (c d : Cursor) :
    f.part? c d = if (f.part c d).content.isEmpty then none else some (f.whole (f.part c d)) := by
  unfold part? part whole
  cases c.textTo d <;> rfl

/-- The units of a fragment are the stretches between the tokens, where there is text. -/
theorem map_whole_minimalUnits (f : Fragment) (issued : Nat) :
    (f.minimalUnits issued).map f.whole =
      (f.cursor.stretches (f.target.unitCuts f.context.guardSet f.cursor)).filterMap
        fun (a, b) => f.part? a b := by
  unfold minimalUnits
  simp only
  generalize f.cursor.stretches (f.target.unitCuts f.context.guardSet f.cursor) = stretches
  have hnumbers : ∀ (number : Fragment × Nat → Fragment), (∀ u, f.whole (number u) = f.whole u.1) →
      ∀ units : List Fragment, ((units.zipIdx issued).map number).map f.whole =
        units.map f.whole := by
    intro number hnumber units
    have hwhole : f.whole ∘ number = f.whole ∘ Prod.fst := funext hnumber
    rw [List.map_map, hwhole, ← List.map_map, List.zipIdx_map_fst]
  rw [hnumbers]
  swap
  · exact fun _ => rfl
  induction stretches with
  | nil => rfl
  | cons stretch stretches ih =>
    obtain ⟨a, b⟩ := stretch
    rw [List.map_cons, List.filterMap_cons, part?_eq, List.filter_cons]
    cases (f.part a b).content.isEmpty with
    | true => simpa using ih
    | false => simpa using ih

/-- The units of a fragment bear the numbers from `issued` up, in order. -/
theorem ids_minimalUnits (issued : Nat) (f : Fragment) :
    (f.minimalUnits issued).map id = List.range' issued (f.minimalUnits issued).length := by
  unfold minimalUnits
  simp only [List.map_map, List.length_map, List.length_zipIdx]
  exact List.zipIdx_map_snd issued _

theorem isPart_minimalUnits {issued : Nat} (hu : u ∈ f.minimalUnits issued) : f.IsPart u := by
  unfold minimalUnits at hu
  obtain ⟨⟨v, id⟩, hv, rfl⟩ := List.mem_map.1 hu
  have hpart := (List.mem_filter.1 (List.fst_mem_of_mem_zipIdx hv)).1
  obtain ⟨⟨a, b⟩, -, rfl⟩ := List.mem_map.1 hpart
  exact f.isPart_part a b id

/-- The units of a fragment tile it. -/
theorem tiles_minimalUnits (f : Fragment) (issued : Nat) :
    Tiles (fun _ => True) f.cursor (f.minimalUnits issued) f.cursor.toEnd := by
  have horder := Target.pairwise_unitCuts f.target f.context.guardSet f.cursor
  have htiles := tiles_stretches (P := fun _ => True) f horder (fun _ _ => trivial) trivial
  rw [← map_whole_minimalUnits f issued] at htiles
  exact htiles.of_map f.whole fun u a b h => ⟨h.start, h.stop, h.read, h.text⟩

/-- The text of a fragment ends where the fragment stops. -/
theorem Covers.toEnd_eq {d : Cursor} (h : f.Covers c d) : f.cursor.toEnd = ⟨f.stop, []⟩ := by
  rw [h.stop, h.read.2, ← h.start]
  rfl

/-! ## Literals of the units -/

/-- What is in order can be divided at any offset. -/
theorem filter_append_filter {literals : List Literal}
    (h : literals.Pairwise fun l m => l.offset < m.offset) (n : Nat) :
    literals.filter (·.offset < n) ++ literals.filter (n ≤ ·.offset) = literals := by
  induction literals with
  | nil => rfl
  | cons l literals ih =>
    obtain ⟨hbehind, horder⟩ := List.pairwise_cons.1 h
    by_cases hl : l.offset < n
    · rw [List.filter_cons_of_pos (by simpa using hl),
        List.filter_cons_of_neg (by simpa using hl), List.cons_append, ih horder]
    · have hnone : literals.filter (·.offset < n) = [] := by
        rw [List.filter_eq_nil_iff]
        intro m hm
        have := hbehind m hm
        simp only [decide_eq_true_eq]
        omega
      have hall : literals.filter (n ≤ ·.offset) = literals := by
        rw [List.filter_eq_self]
        intro m hm
        have := hbehind m hm
        simp only [decide_eq_true_eq]
        omega
      rw [List.filter_cons_of_neg (by simpa using hl),
        List.filter_cons_of_pos (by simpa using hl), hnone, hall, List.nil_append]

/-- Literals in order, given to the fragments of a tiling they begin in, stay what they are. -/
theorem Tiles.flatMap_literals (h : Tiles P c units e) {literals : List Literal}
    (horder : InOrder c.offset e.offset literals) :
    (units.flatMap fun u =>
      literals.filter fun l => u.start.offset ≤ l.offset && l.offset < u.stop.offset) =
        literals := by
  induction h generalizing literals with
  | nil c =>
    cases literals with
    | nil => rfl
    | cons l literals =>
      have := horder.within l List.mem_cons_self
      omega
  | @cons c d e u units covers cut more ih =>
    have hde : d.Reaches e := ⟨_, more.consumes⟩
    have hfirst : (literals.filter fun l => u.start.offset ≤ l.offset && l.offset < u.stop.offset) =
        literals.filter (·.offset < d.offset) := by
      refine List.filter_congr fun l hl => ?_
      have := (horder.within l hl).1
      rw [covers.start, covers.stop]
      simp only [Bool.and_eq_right_iff_imp, decide_eq_true_eq]
      exact fun _ => this
    have hrest : InOrder d.offset e.offset (literals.filter (d.offset ≤ ·.offset)) := by
      refine ⟨fun l hl => ?_, horder.ordered.sublist List.filter_sublist⟩
      obtain ⟨hl, hd⟩ := List.mem_filter.1 hl
      exact ⟨by simpa using hd, (horder.within l hl).2⟩
    -- the units behind `d` take their literals from those behind `d`
    have hsame : ∀ v ∈ units,
        (literals.filter fun l => v.start.offset ≤ l.offset && l.offset < v.stop.offset) =
          (literals.filter (d.offset ≤ ·.offset)).filter fun l =>
            v.start.offset ≤ l.offset && l.offset < v.stop.offset := by
      intro v hv
      have hstart := (more.bounds hv).1
      rw [List.filter_filter]
      refine List.filter_congr fun l _ => ?_
      rw [eq_comm, Bool.and_eq_left_iff_imp]
      simp only [Bool.and_eq_true, decide_eq_true_eq]
      omega
    rw [List.flatMap_cons, hfirst, List.flatMap_congr hsame, ih hrest,
      filter_append_filter horder.ordered]

/-! ## Division -/

/-- The units, read one after the other, are the fragment: none is empty, each begins where
the one before it stops, all are of the fragment's kind, and each literal of the fragment
is in exactly one of them, that which holds its first byte. -/
structure Divides (f : Fragment) (units : List Fragment) : Prop where
  nonempty : units ≠ []
  text : ∀ u ∈ units, u.content ≠ []
  content : (units.map Fragment.content).flatten = f.content
  first : ∀ u ∈ units.head?, u.start = f.start
  adjacent : units.IsChain fun u v => u.stop = v.start
  last : ∀ u ∈ units.getLast?, u.stop = f.stop
  kin : ∀ u ∈ units, u.toFrame = f.toFrame ∧ u.degraded = f.degraded
  target : ∀ u ∈ units, u.target = f.target ∧ u.features = f.features
  literals : units.flatMap Fragment.literals = f.literals
  holder : ∀ l ∈ f.literals, ∃ before u behind, units = before ++ u :: behind ∧
    l ∈ u.literals ∧ u.start.offset ≤ l.offset ∧ l.offset < u.stop.offset ∧
    ∀ v ∈ before ++ behind, l ∉ v.literals

/-- A literal is in no unit of a tiling but the one that it begins in. -/
theorem Tiles.exists_holder (h : Tiles P c units e) (hparts : ∀ u ∈ units, f.IsPart u)
    {l : Literal} (hl : l ∈ units.flatMap literals) :
    ∃ before u behind, units = before ++ u :: behind ∧
      l ∈ u.literals ∧ u.start.offset ≤ l.offset ∧ l.offset < u.stop.offset ∧
      ∀ v ∈ before ++ behind, l ∉ v.literals := by
  have hin : ∀ u ∈ units, l ∈ u.literals →
      u.start.offset ≤ l.offset ∧ l.offset < u.stop.offset := by
    intro u hu hl
    rw [(hparts u hu).literals] at hl
    simpa using (List.mem_filter.1 hl).2
  obtain ⟨u, hu, hlu⟩ := List.mem_flatMap.1 hl
  obtain ⟨hstart, hstop⟩ := hin u hu hlu
  obtain ⟨before, behind, rfl⟩ := List.append_of_mem hu
  refine ⟨before, u, behind, rfl, hlu, hstart, hstop, fun v hv hlv => ?_⟩
  obtain ⟨hvstart, hvstop⟩ := hin v
    (List.mem_append.2 ((List.mem_append.1 hv).imp_right (List.mem_cons_of_mem u))) hlv
  obtain ⟨a, hbefore, hrest⟩ := h.of_append
  cases hrest with
  | @cons _ b _ _ _ covers _ hbehind =>
    rw [covers.start] at hstart
    rw [covers.stop] at hstop
    rcases List.mem_append.1 hv with hv | hv
    · have := (hbefore.bounds hv).2.2
      exact absurd (Nat.lt_of_lt_of_le hvstop (Nat.le_trans this hstart)) (Nat.lt_irrefl _)
    · have := (hbehind.bounds hv).1
      exact absurd (Nat.lt_of_lt_of_le hstop (Nat.le_trans this hvstart)) (Nat.lt_irrefl _)

/-- The units of a fragment divide it, if its literals begin in its text, in order. -/
theorem divides_minimalUnits {d : Cursor} (h : f.Covers c d) (horder : f.LiteralsInOrder)
    (issued : Nat) : f.Divides (f.minimalUnits issued) := by
  have htiles := tiles_minimalUnits f issued
  have hparts : ∀ u ∈ f.minimalUnits issued, f.IsPart u := fun u hu => isPart_minimalUnits hu
  have hstop : f.cursor.toEnd.position = f.stop := by rw [h.toEnd_eq]
  have hcontent : ((f.minimalUnits issued).map Fragment.content).flatten = f.content := by
    have hread := htiles.consumes.1
    rw [show f.cursor.toEnd.rest = [] from rfl, List.append_nil] at hread
    exact hread.symm
  have hliterals : (f.minimalUnits issued).flatMap Fragment.literals = f.literals := by
    have hinOrder : InOrder f.cursor.offset f.cursor.toEnd.offset f.literals := by
      rw [show f.cursor.toEnd.offset = f.stop.offset from congrArg Position.offset hstop]
      exact horder
    rw [List.flatMap_congr fun u hu => (hparts u hu).literals]
    exact htiles.flatMap_literals hinOrder
  refine ⟨?_, ?_, hcontent, htiles.start_eq, htiles.isChain, ?_, ?_, ?_, hliterals, ?_⟩
  · intro hnil
    rw [hnil] at hcontent
    exact h.text hcontent.symm
  · intro u hu
    obtain ⟨a, b, hcovers, -⟩ := htiles.exists_covers hu
    exact hcovers.text
  · intro u hu
    exact (htiles.stop_eq u hu).trans hstop
  · intro u hu
    exact ⟨(hparts u hu).kin.1.symm, (hparts u hu).kin.2.symm⟩
  · intro u hu
    exact ⟨(hparts u hu).target, (hparts u hu).features⟩
  · intro l hl
    rw [← hliterals] at hl
    exact htiles.exists_holder hparts hl

end Fragment

/-! ## The units of a scan -/

namespace Scan

variable {options : Options} {text : List Char} {scan : Scan}

/-- The units of the fragments, one fragment after the other, are added in order, and the
numbers they bear are those from `issued` up. -/
theorem foldl_addUnits (fs done : List Fragment) (issued : Nat) :
    ∃ parts : List (List Fragment), fs.foldl addUnits (done, issued) =
        (parts.flatten.reverse ++ done, issued + parts.flatten.length) ∧
      parts.flatten.map Fragment.id = List.range' issued parts.flatten.length ∧
      List.Forall₂ (fun f units => ∃ issued, units = f.minimalUnits issued) fs parts := by
  induction fs generalizing done issued with
  | nil => exact ⟨[], rfl, rfl, .nil⟩
  | cons f fs ih =>
    obtain ⟨parts, hunits, hids, hparts⟩ := ih ((f.minimalUnits issued).reverse ++ done)
      (issued + (f.minimalUnits issued).length)
    refine ⟨f.minimalUnits issued :: parts, ?_, ?_, .cons ⟨issued, rfl⟩ hparts⟩
    · rw [List.foldl_cons, addUnits, hunits]
      simp [Nat.add_assoc]
    · rw [List.flatten_cons, List.map_append, hids, Fragment.ids_minimalUnits,
        List.length_append, List.range'_append_1]

/-- The units of a scan are those of its fragments, one fragment after the other. -/
theorem minimalUnits_eq (scan : Scan) : ∃ parts, scan.minimalUnits = parts.flatten ∧
    List.Forall₂ (fun f units => ∃ issued, units = f.minimalUnits issued) scan.fragments
      parts := by
  obtain ⟨parts, hunits, -, hparts⟩ := foldl_addUnits scan.fragments [] scan.issued
  refine ⟨parts, ?_, hparts⟩
  rw [minimalUnits, takeUnits, hunits]
  simp

/-- The minimal units of a scan are those of its fragments, and they divide each fragment
without loss, however they are numbered. -/
theorem divides_units (h : ofText? options text = .ok scan) :
    (∀ f ∈ scan.fragments, ∀ issued, f.Divides (f.minimalUnits issued)) ∧
    ∃ parts, scan.minimalUnits = parts.flatten ∧
      List.Forall₂ (fun f units => ∃ issued, units = f.minimalUnits issued) scan.fragments
        parts := by
  obtain rfl := eq_ofText h
  refine ⟨fun f hf issued => ?_, minimalUnits_eq _⟩
  obtain ⟨e, -, htiles⟩ := fragments_tiles options text
  obtain ⟨a, b, hcovers, -⟩ := htiles.exists_covers hf
  exact Fragment.divides_minimalUnits hcovers (literalsInOrder_fragments hf) issued

/-- A document with two values without quotes in one style block. -/
theorem divides_units_style : ∃ scan,
    ofText? .standard "style \x7b a: b; c \x7b d: e \x7d \x7d".toList = .ok scan ∧
    (∃ f ∈ scan.fragments, f.literals.length = 2 ∧ (f.minimalUnits 0).length = 2) ∧
    (∀ f ∈ scan.fragments, ∀ issued, f.Divides (f.minimalUnits issued)) ∧
    ∃ parts, scan.minimalUnits = parts.flatten ∧
      List.Forall₂ (fun f units => ∃ issued, units = f.minimalUnits issued) scan.fragments
        parts := by
  let text := "style \x7b a: b; c \x7b d: e \x7d \x7d".toList
  have hscan : ofText? .standard text = .ok (ofText .standard text) :=
    ofText?_eq_ok .standard (by decide) (by decide)
  have hliterals : ∃ f ∈ (ofText .standard text).fragments,
      f.literals.length = 2 ∧ (f.minimalUnits 0).length = 2 := by
    decide +kernel
  exact ⟨_, hscan, hliterals, divides_units hscan⟩

end Scan

end Polyglot
