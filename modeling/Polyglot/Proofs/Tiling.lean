-- SUMMARY: Tilings: fragments that lie side by side, and that they still do when neighbours are joined.
import Polyglot.Run
import Mathlib.Data.List.SplitBy

/-!
# Tilings

`Fragment.Tiles P c fs e` says that the fragments `fs`, read one after the other,
are the text from `c` to `e`, and that `P` holds wherever one of them stops. To
join neighbours keeps the places where they stop or drops them, so stitching and
merging of runs preserve a tiling.
-/

namespace Polyglot

namespace Fragment

/-! ## Fragments side by side -/

/-- The fragment is the text between two cursors, and there is some. -/
structure Covers (f : Fragment) (c d : Cursor) : Prop where
  start : f.start = c.position
  stop : f.stop = d.position
  read : c.Consumes f.content d
  text : f.content ≠ []

/-- The fragments are the text between two cursors, and `P` holds where they stop. -/
inductive Tiles (P : Cursor → Prop) : Cursor → List Fragment → Cursor → Prop where
  | nil (c : Cursor) : Tiles P c [] c
  | cons {c d e : Cursor} {f : Fragment} {fs : List Fragment} (covers : f.Covers c d)
      (cut : P d) (more : Tiles P d fs e) : Tiles P c (f :: fs) e

variable {P Q : Cursor → Prop} {c d e : Cursor} {f g : Fragment} {fs gs : List Fragment}

theorem Tiles.append (h : Tiles P c fs d) (k : Tiles P d gs e) : Tiles P c (fs ++ gs) e := by
  induction h with
  | nil => exact k
  | cons covers cut _ ih => exact .cons covers cut (ih k)

theorem Tiles.concat (h : Tiles P c fs d) (hf : f.Covers d e) (hcut : P e) :
    Tiles P c (fs ++ [f]) e :=
  h.append (.cons hf hcut (.nil e))

theorem Tiles.of_append (h : Tiles P c (fs ++ gs) e) :
    ∃ d, Tiles P c fs d ∧ Tiles P d gs e := by
  induction fs generalizing c with
  | nil => exact ⟨c, .nil c, h⟩
  | cons f fs ih =>
    cases h with
    | cons covers cut more =>
      obtain ⟨d, hfs, hgs⟩ := ih more
      exact ⟨d, .cons covers cut hfs, hgs⟩

theorem Tiles.of_concat (h : Tiles P c (fs ++ [f]) e) :
    ∃ d, Tiles P c fs d ∧ f.Covers d e ∧ P e := by
  obtain ⟨d, hfs, hf⟩ := h.of_append
  cases hf with
  | cons covers cut more =>
    cases more
    exact ⟨d, hfs, covers, cut⟩

theorem Tiles.imp (h : Tiles P c fs e) (hP : ∀ d, P d → Q d) : Tiles Q c fs e := by
  induction h with
  | nil c => exact .nil c
  | cons covers cut _ ih => exact .cons covers (hP _ cut) ih

/-- Fragments may change in everything but their text and their place. -/
theorem Tiles.map (h : Tiles P c fs e) (φ : Fragment → Fragment)
    (hφ : ∀ f c d, f.Covers c d → (φ f).Covers c d) : Tiles P c (fs.map φ) e := by
  induction h with
  | nil c => exact .nil c
  | cons covers cut _ ih => exact .cons (hφ _ _ _ covers) cut ih

theorem Tiles.of_map (φ : Fragment → Fragment) (hφ : ∀ f c d, (φ f).Covers c d → f.Covers c d)
    (h : Tiles P c (fs.map φ) e) : Tiles P c fs e := by
  induction fs generalizing c with
  | nil =>
    cases h
    exact .nil _
  | cons f fs ih =>
    cases h with
    | cons covers cut more => exact .cons (hφ _ _ _ covers) cut (ih more)

theorem Tiles.consumes (h : Tiles P c fs e) : c.Consumes (fs.map content).flatten e := by
  induction h with
  | nil c => exact Cursor.Consumes.refl c
  | cons covers _ _ ih => exact covers.read.trans ih

/-- Where a fragment of a tiling lies. It begins at the start or where another one stops. -/
theorem Tiles.exists_covers (h : Tiles P c fs e) (hf : f ∈ fs) :
    ∃ a b, f.Covers a b ∧ (a = c ∨ P a) ∧ P b ∧ c.Reaches a ∧ b.Reaches e := by
  induction h with
  | nil => cases hf
  | @cons c d e g gs covers cut more ih =>
    rcases List.mem_cons.1 hf with rfl | hf
    · exact ⟨c, d, covers, .inl rfl, cut, .refl c, ⟨_, more.consumes⟩⟩
    · obtain ⟨a, b, hab, hstart, hstop, hca, hbe⟩ := ih hf
      refine ⟨a, b, hab, .inr ?_, hstop, .trans ⟨_, covers.read⟩ hca, hbe⟩
      rcases hstart with rfl | hstart
      · exact cut
      · exact hstart

/-- A tiling of a text is one wherever the text stands. -/
theorem Tiles.behind (h : Tiles P c fs e) (r : List Char) :
    Tiles (fun _ => True) ⟨c.position, c.rest ++ r⟩ fs ⟨e.position, e.rest ++ r⟩ := by
  induction h with
  | nil c => exact .nil _
  | @cons c d e f fs covers _ _ ih =>
    have hcovers : f.Covers ⟨c.position, c.rest ++ r⟩ ⟨d.position, d.rest ++ r⟩ :=
      ⟨covers.start, covers.stop, ⟨by simp [covers.read.1], covers.read.2⟩, covers.text⟩
    exact .cons hcovers trivial ih

theorem Tiles.start_eq (h : Tiles P c fs e) : ∀ f ∈ fs.head?, f.start = c.position := by
  cases h with
  | nil => simp
  | cons covers cut more => simpa using covers.start

theorem Tiles.stop_eq (h : Tiles P c fs e) : ∀ f ∈ fs.getLast?, f.stop = e.position := by
  rcases List.eq_nil_or_concat fs with rfl | ⟨fs, g, rfl⟩
  · simp
  · rw [List.concat_eq_append] at h ⊢
    obtain ⟨d, -, hg, -⟩ := h.of_concat
    simpa using hg.stop

/-- A tiling ends where it began or where one of its fragments stops. -/
theorem Tiles.cut (h : Tiles P c fs e) : e = c ∨ P e := by
  rcases List.eq_nil_or_concat fs with rfl | ⟨fs, g, rfl⟩
  · cases h
    exact .inl rfl
  · rw [List.concat_eq_append] at h
    obtain ⟨d, -, -, hcut⟩ := h.of_concat
    exact .inr hcut

/-- Each fragment of a tiling begins where the one before it stops. -/
theorem Tiles.isChain (h : Tiles P c fs e) : fs.IsChain fun f g => f.stop = g.start := by
  induction h with
  | nil => exact .nil
  | cons covers _ more ih =>
    rw [List.isChain_cons]
    refine ⟨fun g hg => ?_, ih⟩
    rw [covers.stop, more.start_eq g hg]

/-- Where each fragment of a tiling is tiled, the parts tile the whole. -/
theorem Tiles.flatMap {part : Fragment → List Fragment} (h : Tiles P c fs e)
    (hpart : ∀ f ∈ fs, ∃ Q, Tiles Q f.cursor (part f) ⟨f.stop, []⟩) :
    Tiles (fun _ => True) c (fs.flatMap part) e := by
  induction h with
  | nil c => exact .nil c
  | @cons c d e f fs covers cut more ih =>
    obtain ⟨Q, hf⟩ := hpart f List.mem_cons_self
    have hbehind := hf.behind d.rest
    have hc : (⟨f.cursor.position, f.cursor.rest ++ d.rest⟩ : Cursor) = c := by
      rw [cursor, covers.start, ← covers.read.1]
    rw [hc, covers.stop] at hbehind
    exact hbehind.append (ih fun g hg => hpart g (List.mem_cons_of_mem f hg))

/-- The fragments of a tiling lie within it. -/
theorem Tiles.bounds (h : Tiles P c fs e) (hf : f ∈ fs) :
    c.offset ≤ f.start.offset ∧ f.start.offset < f.stop.offset ∧ f.stop.offset ≤ e.offset := by
  have hoffset : ∀ {a b : Cursor} {u : List Char}, a.Consumes u b →
      b.offset = a.offset + byteLength u := by
    intro a b u hu
    rw [Cursor.offset, hu.2, Position.advanceOver_offset]
  obtain ⟨a, b, hcovers, -, -, ⟨u, hu⟩, ⟨v, hv⟩⟩ := h.exists_covers hf
  have hlength : 0 < byteLength f.content := by
    obtain ⟨ch, text, htext⟩ := List.exists_cons_of_ne_nil hcovers.text
    rw [htext, byteLength_cons]
    exact Nat.add_pos_left ch.utf8Size_pos _
  have hbefore := hoffset hu
  have hread := hoffset hcovers.read
  have hbehind := hoffset hv
  rw [hcovers.start, hcovers.stop]
  change c.offset ≤ a.offset ∧ a.offset < b.offset ∧ b.offset ≤ e.offset
  omega

/-- The fragments of a tiling begin one behind the other. -/
theorem Tiles.pairwise (h : Tiles P c fs e) :
    fs.Pairwise fun f g => f.start.offset < g.start.offset := by
  induction h with
  | nil c => exact .nil
  | @cons c d e f fs covers cut more ih =>
    refine List.pairwise_cons.2 ⟨fun g hg => ?_, ih⟩
    have hfirst := (Tiles.cons covers cut more).bounds List.mem_cons_self
    have hbehind := (more.bounds hg).1
    rw [covers.stop] at hfirst
    exact Nat.lt_of_lt_of_le hfirst.2.1 hbehind

/-- The fragments of a tiling between two of its cursors are found by their offsets. -/
theorem Tiles.filter_between {R : Cursor → Prop} {a b : Cursor} {run : List Fragment}
    (hfs : Tiles P c fs a) (hrun : Tiles Q a run b) (hgs : Tiles R b gs e) :
    (fs ++ run ++ gs).filter
      (fun f => a.offset ≤ f.start.offset && f.start.offset < b.offset) = run := by
  have hbefore : fs.filter (fun f => a.offset ≤ f.start.offset && f.start.offset < b.offset) =
      [] := by
    rw [List.filter_eq_nil_iff]
    intro f hf
    have := hfs.bounds hf
    simp only [Bool.and_eq_true, decide_eq_true_eq]
    omega
  have hbehind : gs.filter (fun f => a.offset ≤ f.start.offset && f.start.offset < b.offset) =
      [] := by
    rw [List.filter_eq_nil_iff]
    intro f hf
    have := hgs.bounds hf
    simp only [Bool.and_eq_true, decide_eq_true_eq]
    omega
  have hwithin : run.filter (fun f => a.offset ≤ f.start.offset && f.start.offset < b.offset) =
      run := by
    rw [List.filter_eq_self]
    intro f hf
    have := hrun.bounds hf
    simp only [Bool.and_eq_true, decide_eq_true_eq]
    omega
  rw [List.filter_append, List.filter_append, hbefore, hwithin, hbehind, List.nil_append,
    List.append_nil]

/-! ## Joining two neighbours -/

theorem Covers.merge (hf : f.Covers c d) (hg : g.Covers d e) : (f.merge g).Covers c e where
  start := hf.start
  stop := hg.stop
  read := hf.read.trans hg.read
  text := List.append_ne_nil_of_left_ne_nil hf.text _

/-- No selector in double braces reaches over the boundary between two fragments. -/
def Divided (window : Nat) (f g : Fragment) : Prop :=
  dividedSelector (lastBytes window f.content) (takeBytes window g.content) = none

theorem Divided.ne_shift {window : Nat} (h : Divided window f g) (moved : List Char) :
    Boundary.between window f g ≠ .shift moved := by
  unfold Divided at h
  unfold Boundary.between
  split
  · simp
  · simp only [h]
    split <;> simp

/-- A boundary that divides no selector is kept or removed. -/
theorem stitch_of_divided {window : Nat} (h : Divided window f g) :
    f.stitch window g = (f, some g) ∨ f.stitch window g = (f.merge g, none) := by
  unfold stitch
  split
  · split
    · exact .inl rfl
    · exact .inr rfl
    · next moved hshift => exact absurd hshift (h.ne_shift moved)
  · exact .inl rfl

theorem stitchNext_tiles {window : Nat} {done : List Fragment}
    (hdone : Tiles P c done.reverse d) (hg : g.Covers d e) (hcut : P e)
    (hdivided : ∀ f ∈ done.head?, Divided window f g) :
    Tiles P c (stitchNext window done g).reverse e := by
  cases done with
  | nil => exact hdone.concat hg hcut
  | cons f done =>
    rw [stitchNext]
    rcases stitch_of_divided (hdivided f rfl) with h | h
    · rw [h]
      simp only [List.reverse_cons] at hdone ⊢
      exact hdone.concat hg hcut
    · rw [h]
      simp only [List.reverse_cons] at hdone ⊢
      obtain ⟨b, hbefore, hf, -⟩ := hdone.of_concat
      exact hbefore.concat (hf.merge hg) hcut

/-- To stitch a tiling keeps it, if no selector is divided where the fragments stop. -/
theorem stitchAll_tiles {window : Nat} (h : Tiles P c fs e)
    (hdivided : ∀ {f g : Fragment} {a b d}, P b → c.Reaches a → f.Covers a b → g.Covers b d →
      Divided window f g) :
    Tiles P c (stitchAll window fs) e := by
  -- the fragments already stitched are a tiling up to where the others begin
  suffices ∀ (done : List Fragment) (d : Cursor), Tiles P c done.reverse d → Tiles P d fs e →
      Tiles P c (fs.foldl (stitchNext window) done).reverse e from this [] c (.nil c) h
  intro done d hdone hfs
  clear h
  induction fs generalizing done d with
  | nil =>
    cases hfs
    exact hdone
  | cons g fs ih =>
    cases hfs with
    | cons covers cut more =>
      refine ih _ _ (stitchNext_tiles hdone covers cut fun f hf => ?_) more
      cases done with
      | nil => cases hf
      | cons f' done =>
        obtain rfl : f' = f := by simpa using hf
        rw [List.reverse_cons] at hdone
        obtain ⟨a, hbefore, hf', hcut⟩ := hdone.of_concat
        exact hdivided hcut ⟨_, hbefore.consumes⟩ hf' covers

/-! ## Joining a run -/

/-- A run of fragments as one, without a number. -/
def joined? : List Fragment → Option Fragment
  | [] => none
  | f :: more => some (f.mergeRun more 0)

theorem Tiles.mergeRun (h : Tiles P c (f :: fs) e) (id : FragmentId) :
    (f.mergeRun fs id).Covers c e ∧ P e := by
  refine ⟨⟨?_, ?_, ?_, ?_⟩, ?_⟩
  · cases h with
    | cons covers => exact covers.start
  · rcases List.eq_nil_or_concat fs with rfl | ⟨fs, g, rfl⟩
    · cases h with
      | cons covers cut more =>
        cases more
        exact covers.stop
    · rw [List.concat_eq_append, ← List.cons_append] at h
      obtain ⟨d, -, hg, -⟩ := h.of_concat
      simpa [Fragment.mergeRun] using hg.stop
  · simpa [Fragment.mergeRun] using h.consumes
  · cases h with
    | cons covers => exact List.append_ne_nil_of_left_ne_nil covers.text _
  · rcases List.eq_nil_or_concat (f :: fs) with hnil | ⟨gs, g, hgs⟩
    · cases hnil
    · rw [hgs, List.concat_eq_append] at h
      exact h.of_concat.choose_spec.2.2

theorem literals_mergeRun (f : Fragment) (more : List Fragment) (id : FragmentId) :
    (f.mergeRun more id).literals = (f :: more).flatMap literals := by
  simp [mergeRun, List.flatMap_def]

/-- To join runs keeps the literals. -/
theorem literals_joined (runs : List (List Fragment)) :
    (runs.filterMap joined?).flatMap literals = runs.flatten.flatMap literals := by
  induction runs with
  | nil => rfl
  | cons run runs ih =>
    cases run with
    | nil => exact ih
    | cons f more =>
      have hjoined : joined? (f :: more) = some (f.mergeRun more 0) := rfl
      rw [List.filterMap_cons_some hjoined, List.flatMap_cons, ih, List.flatten_cons,
        List.flatMap_append, literals_mergeRun]

/-- To join every run of a tiling keeps it. -/
theorem Tiles.joined {runs : List (List Fragment)} (h : Tiles P c runs.flatten e) :
    Tiles P c (runs.filterMap joined?) e := by
  induction runs generalizing c with
  | nil => exact h
  | cons run runs ih =>
    rw [List.flatten_cons] at h
    obtain ⟨d, hrun, hmore⟩ := h.of_append
    cases run with
    | nil =>
      cases hrun
      exact ih hmore
    | cons f more =>
      obtain ⟨hcovers, hcut⟩ := hrun.mergeRun 0
      exact .cons hcovers hcut (ih hmore)

end Fragment

end Polyglot
