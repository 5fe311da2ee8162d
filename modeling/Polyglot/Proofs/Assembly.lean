-- SUMMARY: Assembly: what a scan does with the fragments of the structural pass, one by one.
import Polyglot.Proofs.Tiling
import Polyglot.Scan

/-!
# Assembly

`Fragment.assemble` is what a scan does with the fragments of the structural pass,
but for the numbers. Neighbours that do not share both scope and context are never
joined, so where every fragment was divided into parts of its own frame, each list
of parts is assembled for itself (`Fragment.assemble_flatMap`).
-/

namespace Polyglot

namespace Fragment

/-! ## Numbers -/

/-- The fragment without its number. -/
def unnumbered (f : Fragment) : Fragment := { f with id := 0 }

/-- Stitch, classify, and join the runs if the options say so. -/
def assemble (options : Options) (fs : List Fragment) : List Fragment :=
  let fs := (stitchAll options.stitchWindow fs).map classify
  if options.aggregate then (fs.splitBy mergeable).filterMap joined? else fs.map unnumbered

theorem covers_unnumbered {f : Fragment} {c d : Cursor} :
    f.unnumbered.Covers c d ↔ f.Covers c d :=
  ⟨fun h => ⟨h.start, h.stop, h.read, h.text⟩, fun h => ⟨h.start, h.stop, h.read, h.text⟩⟩

theorem precedes_unnumbered (f g : Fragment) :
    f.unnumbered.precedes g.unnumbered = f.precedes g := rfl

theorem mergeable_unnumbered (f g : Fragment) :
    f.unnumbered.mergeable g.unnumbered = f.mergeable g := rfl

theorem stitch_unnumbered (window : Nat) (f g : Fragment) :
    f.unnumbered.stitch window g.unnumbered =
      ((f.stitch window g).1.unnumbered, (f.stitch window g).2.map unnumbered) := by
  have hbetween : Boundary.between window f.unnumbered g.unnumbered =
      Boundary.between window f g := rfl
  unfold stitch
  rw [precedes_unnumbered, hbetween]
  split
  · split <;> rfl
  · rfl

theorem stitchNext_unnumbered (window : Nat) (done : List Fragment) (g : Fragment) :
    stitchNext window (done.map unnumbered) g.unnumbered =
      (stitchNext window done g).map unnumbered := by
  cases done with
  | nil => rfl
  | cons f done =>
    simp only [List.map_cons, stitchNext, stitch_unnumbered]
    rcases f.stitch window g with ⟨f', _ | g'⟩ <;> rfl

theorem stitchAll_unnumbered (window : Nat) (fs : List Fragment) :
    stitchAll window (fs.map unnumbered) = (stitchAll window fs).map unnumbered := by
  suffices ∀ done : List Fragment, (fs.map unnumbered).foldl (stitchNext window)
      (done.map unnumbered) = (fs.foldl (stitchNext window) done).map unnumbered by
    have := this []
    rw [List.map_nil] at this
    rw [stitchAll, this, stitchAll, List.map_reverse]
  induction fs with
  | nil => exact fun done => rfl
  | cons g fs ih =>
    intro done
    simp only [List.map_cons, List.foldl_cons, stitchNext_unnumbered]
    exact ih _

theorem classify_unnumbered (f : Fragment) : f.unnumbered.classify = f.classify.unnumbered := by
  obtain ⟨⟨context, nesting, parents, scope⟩, id, content, start, stop, features, literals,
    degraded⟩ := f
  cases context <;> rfl

/-- Runs stay the same under a change that the relation does not see. -/
theorem splitBy_map (φ : Fragment → Fragment) {r : Fragment → Fragment → Bool}
    (hr : ∀ f g, r (φ f) (φ g) = r f g) (fs : List Fragment) :
    (fs.map φ).splitBy r = (fs.splitBy r).map (List.map φ) := by
  rw [List.splitBy_eq_iff]
  refine ⟨?_, ?_, ?_, ?_⟩
  · rw [← List.map_flatten, List.flatten_splitBy]
  · simp [List.nil_notMem_splitBy]
  · intro run hrun
    obtain ⟨run, hmem, rfl⟩ := List.mem_map.1 hrun
    rw [List.isChain_map]
    exact (List.isChain_of_mem_splitBy hmem).imp fun f g hfg => (hr f g).trans hfg
  · rw [List.isChain_map]
    refine (List.isChain_getLast_head_splitBy r fs).imp ?_
    rintro a b ⟨ha, hb, hab⟩
    refine ⟨by simpa using ha, by simpa using hb, ?_⟩
    rw [List.getLast_map, List.head_map, hr]
    exact hab

/-- A run of one fragment is that fragment. -/
theorem joined?_singleton (f : Fragment) : joined? [f] = some f.unnumbered := by
  simp [joined?, mergeRun, unnumbered]

theorem joined?_unnumbered (run : List Fragment) : joined? (run.map unnumbered) = joined? run := by
  cases run with
  | nil => rfl
  | cons f more =>
    have hcontent : content ∘ unnumbered = content := rfl
    have hliterals : literals ∘ unnumbered = literals := rfl
    have hstop : (f.unnumbered :: more.map unnumbered).getLast?.map stop =
        (f :: more).getLast?.map stop := by
      rw [← List.map_cons, List.getLast?_map, Option.map_map]
      rfl
    have hlast : ((more.map unnumbered).getLastD f.unnumbered).stop = (more.getLastD f).stop := by
      simpa [List.getLast?_cons] using hstop
    simp only [List.map_cons, joined?, mergeRun, hlast, List.map_map, hcontent, hliterals,
      List.foldl_map]
    rfl

theorem assemble_unnumbered (options : Options) (fs : List Fragment) :
    assemble options (fs.map unnumbered) = assemble options fs := by
  have hclassify : classify ∘ unnumbered = unnumbered ∘ classify := funext classify_unnumbered
  simp only [assemble, stitchAll_unnumbered, List.map_map, hclassify]
  rw [← List.map_map, splitBy_map unnumbered mergeable_unnumbered, List.filterMap_map]
  have hjoined : joined? ∘ List.map unnumbered = joined? := funext joined?_unnumbered
  have htwice : unnumbered ∘ unnumbered ∘ classify = unnumbered ∘ classify := rfl
  rw [hjoined, htwice, List.map_map]

/-- To number the merged runs changes nothing else. -/
theorem aggregate_unnumbered (issued : Nat) (fs : List Fragment) :
    (aggregate issued fs).1.map unnumbered = (fs.splitBy mergeable).filterMap joined? := by
  suffices ∀ (runs : List (List Fragment)) (done : List Fragment) (issued : Nat),
      (runs.foldl addRun (done, issued)).1.reverse.map unnumbered =
        done.reverse.map unnumbered ++ runs.filterMap joined? by
    exact this _ [] issued
  intro runs
  induction runs with
  | nil => simp
  | cons run runs ih =>
    intro done issued
    match run with
    | [] => exact ih done issued
    | [f] =>
      rw [List.foldl_cons, addRun, ih, List.filterMap_cons_some (joined?_singleton f)]
      simp
    | f :: g :: more =>
      have hrun : joined? (f :: g :: more) = some (f.mergeRun (g :: more) issued).unnumbered := rfl
      rw [List.foldl_cons, addRun, ih, List.filterMap_cons_some hrun]
      · simp
      · simp

end Fragment

/-- A scan assembles what the structural pass has emitted. -/
theorem Scan.fragments_unnumbered (options : Options) (text : List Char) :
    (Scan.ofText options text).fragments.map Fragment.unnumbered =
      Fragment.assemble options
        (Outline.ofText options text (encodingRemarks text .empty)).fragments := by
  unfold Scan.ofText Fragment.assemble
  cases options.aggregate with
  | true => exact Fragment.aggregate_unnumbered _ _
  | false => rfl

/-! ## Neighbours that stay apart -/

/-- The two frames do not share both scope and context. -/
def Frame.Apart (a b : Frame) : Prop := ¬ (a.scope = b.scope ∧ a.context = b.context)

namespace Fragment

/-- The two fragments do not share both scope and context. -/
def Apart (f g : Fragment) : Prop := f.toFrame.Apart g.toFrame

/-- The two fragments have the same frame, and error recovery made both or neither. -/
def Kin (f g : Fragment) : Prop := f.toFrame = g.toFrame ∧ f.degraded = g.degraded

theorem Kin.trans {f g h : Fragment} (k : f.Kin g) (l : g.Kin h) : f.Kin h :=
  ⟨k.1.trans l.1, k.2.trans l.2⟩

theorem Kin.symm {f g : Fragment} (k : f.Kin g) : g.Kin f := ⟨k.1.symm, k.2.symm⟩

theorem Apart.of_kin {f g f' g' : Fragment} (h : f.Apart g) (hf : f.Kin f') (hg : g.Kin g') :
    f'.Apart g' := by
  unfold Apart at h ⊢
  rwa [← hf.1, ← hg.1]

theorem precedes_of_apart {f g : Fragment} (h : f.Apart g) : f.precedes g = false := by
  cases hp : f.precedes g with
  | false => rfl
  | true =>
    simp only [precedes, Bool.and_eq_true, decide_eq_true_eq] at hp
    exact absurd ⟨hp.1.1.1.2, hp.1.1.2⟩ h

theorem mergeable_of_apart {f g : Fragment} (h : f.Apart g) : f.mergeable g = false := by
  rw [mergeable, precedes_of_apart h, Bool.false_and]

theorem kin_classify (f : Fragment) : f.Kin f.classify := by
  obtain ⟨⟨context, nesting, parents, scope⟩, id, content, start, stop, features, literals,
    degraded⟩ := f
  cases context <;> exact ⟨rfl, rfl⟩

theorem kin_merge (f g : Fragment) : f.Kin (f.merge g) := ⟨rfl, rfl⟩

/-- What stitching leaves of two fragments keeps their frames. -/
theorem kin_stitch (window : Nat) (f g : Fragment) :
    f.Kin (f.stitch window g).1 ∧ ∀ g' ∈ (f.stitch window g).2, g.Kin g' := by
  unfold stitch
  split
  · split
    · exact ⟨⟨rfl, rfl⟩, by rintro g' ⟨⟩; exact ⟨rfl, rfl⟩⟩
    · exact ⟨kin_merge f g, by simp⟩
    · exact ⟨⟨rfl, rfl⟩, by rintro g' ⟨⟩; exact ⟨rfl, rfl⟩⟩
  · exact ⟨⟨rfl, rfl⟩, by rintro g' ⟨⟩; exact ⟨rfl, rfl⟩⟩

/-! ## Stitching part by part -/

theorem foldl_stitchNext_cons (window : Nat) (f : Fragment) (below fs : List Fragment) :
    fs.foldl (stitchNext window) (f :: below) = fs.foldl (stitchNext window) [f] ++ below := by
  induction fs generalizing f below with
  | nil => rfl
  | cons g fs ih =>
    simp only [List.foldl_cons, stitchNext]
    rcases f.stitch window g with ⟨f', _ | g'⟩
    · exact ih f' below
    · simp only
      rw [ih g' (f' :: below), ih g' [f']]
      simp

theorem stitchAll_append {window : Nat} {fs gs : List Fragment}
    (h : ∀ f ∈ (stitchAll window fs).getLast?, ∀ g ∈ gs.head?, f.precedes g = false) :
    stitchAll window (fs ++ gs) = stitchAll window fs ++ stitchAll window gs := by
  cases gs with
  | nil => simp [stitchAll]
  | cons g gs =>
    simp only [stitchAll, List.foldl_append, List.foldl_cons, List.getLast?_reverse] at h ⊢
    cases hdone : fs.foldl (stitchNext window) [] with
    | nil => rfl
    | cons f done =>
      have hfg : f.precedes g = false := h f (by simp [hdone]) g rfl
      have hnext : stitchNext window (f :: done) g = g :: f :: done := by
        simp [stitchNext, stitch, hfg]
      rw [hnext, foldl_stitchNext_cons, List.reverse_append]
      rfl

theorem stitchAll_ne_nil {window : Nat} {fs : List Fragment} (h : fs ≠ []) :
    stitchAll window fs ≠ [] := by
  have hnext : ∀ done g, stitchNext window done g ≠ [] := by
    intro done g
    cases done with
    | nil => simp [stitchNext]
    | cons f done =>
      simp only [stitchNext]
      split <;> simp
  obtain ⟨fs, f, rfl⟩ := List.eq_nil_or_concat fs |>.resolve_left h
  simp [stitchAll, hnext]

/-- What holds of all fragments with the frames of `fs` holds of what stitching makes of them. -/
theorem stitchAll_forall {p : Fragment → Prop} (hp : ∀ f g, f.Kin g → p f → p g) {window : Nat}
    {fs : List Fragment} (h : ∀ f ∈ fs, p f) : ∀ f ∈ stitchAll window fs, p f := by
  suffices ∀ done : List Fragment, (∀ f ∈ done, p f) →
      ∀ f ∈ fs.foldl (stitchNext window) done, p f by
    intro f hf
    exact this [] (by simp) f (List.mem_reverse.1 hf)
  induction fs with
  | nil => exact fun done hdone => hdone
  | cons g fs ih =>
    intro done hdone
    refine ih (fun f hf => h f (List.mem_cons_of_mem g hf)) _ ?_
    have hg := h g List.mem_cons_self
    cases done with
    | nil => simpa [stitchNext] using hg
    | cons f done =>
      have hf := hdone f List.mem_cons_self
      have hrest : ∀ x ∈ done, p x := fun x hx => hdone x (List.mem_cons_of_mem f hx)
      obtain ⟨hfirst, hsecond⟩ := kin_stitch window f g
      simp only [stitchNext]
      rcases hstitch : f.stitch window g with ⟨f', _ | g'⟩
      · rw [hstitch] at hfirst
        simpa using ⟨hp f f' hfirst hf, hrest⟩
      · rw [hstitch] at hfirst hsecond
        simpa using ⟨hp g g' (hsecond g' rfl) hg, hp f f' hfirst hf, hrest⟩

theorem kin_stitchAll {window : Nat} {u : Fragment} {fs : List Fragment}
    (h : ∀ f ∈ fs, u.Kin f) : ∀ f ∈ stitchAll window fs, u.Kin f :=
  stitchAll_forall (fun _ _ hfg hf => hf.trans hfg) h

/-! ## What assembling keeps -/

theorem covers_classify {f : Fragment} {c d : Cursor} (h : f.Covers c d) :
    f.classify.Covers c d := by
  obtain ⟨start, stop, read, text⟩ := h
  obtain ⟨⟨context, nesting, parents, scope⟩, id, content, first, last, features, literals,
    degraded⟩ := f
  cases context <;> exact ⟨start, stop, read, text⟩

/-- To assemble a tiling keeps it, if no selector is divided where the fragments stop. -/
theorem tiles_assemble {P : Cursor → Prop} {c e : Cursor} {fs : List Fragment}
    (options : Options) (h : Tiles P c fs e)
    (hdivided : ∀ {f g : Fragment} {a b d}, P b → c.Reaches a → f.Covers a b → g.Covers b d →
      Divided options.stitchWindow f g) :
    Tiles P c (assemble options fs) e := by
  have hstitched := (stitchAll_tiles h hdivided).map classify fun _ _ _ => covers_classify
  unfold assemble
  cases options.aggregate with
  | false => exact hstitched.map unnumbered fun _ _ _ => covers_unnumbered.2
  | true =>
    apply Tiles.joined
    rwa [List.flatten_splitBy]

/-- What holds of all fragments with the frames of `fs` holds of what assembling makes of them. -/
theorem assemble_forall {p : Fragment → Prop} (hp : ∀ f g, f.Kin g → p f → p g)
    {fs : List Fragment} (options : Options) (h : ∀ f ∈ fs, p f) :
    ∀ f ∈ assemble options fs, p f := by
  have hstitched : ∀ f ∈ (stitchAll options.stitchWindow fs).map classify, p f := by
    intro f hf
    obtain ⟨g, hg, rfl⟩ := List.mem_map.1 hf
    exact hp g _ (kin_classify g) (stitchAll_forall hp h g hg)
  unfold assemble
  cases options.aggregate with
  | false =>
    intro f hf
    obtain ⟨g, hg, rfl⟩ := List.mem_map.1 hf
    exact hp g _ ⟨rfl, rfl⟩ (hstitched g hg)
  | true =>
    intro f hf
    obtain ⟨run, hrun, hjoined⟩ := List.mem_filterMap.1 hf
    cases run with
    | nil => cases hjoined
    | cons g more =>
      cases hjoined
      refine hp g _ ⟨rfl, rfl⟩ (hstitched g ?_)
      rw [← List.flatten_splitBy mergeable ((stitchAll options.stitchWindow fs).map classify)]
      exact List.mem_flatten.2 ⟨_, hrun, List.mem_cons_self⟩

theorem kin_assemble {u : Fragment} {fs : List Fragment} (options : Options)
    (h : ∀ f ∈ fs, u.Kin f) : ∀ f ∈ assemble options fs, u.Kin f :=
  assemble_forall (fun _ _ hfg hf => hf.trans hfg) options h

theorem assemble_singleton (options : Options) (u : Fragment) :
    assemble options [u] = [u.classify.unnumbered] := by
  unfold assemble
  cases options.aggregate with
  | false => rfl
  | true =>
    have hrun : [u.classify].splitBy mergeable = [[u.classify]] := rfl
    calc ([u.classify].splitBy mergeable).filterMap joined?
      _ = [[u.classify]].filterMap joined? := by rw [hrun]
      _ = [u.classify.unnumbered] := by simp [joined?_singleton]

/-- What error recovery made at the end of a document stays a fragment of its own. -/
theorem assemble_concat (options : Options) (fs : List Fragment) {d : Fragment}
    (hd : d.degraded = true) :
    assemble options (fs ++ [d]) = assemble options fs ++ [d.classify.unnumbered] := by
  have hprecedes : ∀ f g : Fragment, g.degraded = true → f.precedes g = false := by
    intro f g hg
    simp [precedes, hg]
  have hstitch : stitchAll options.stitchWindow (fs ++ [d]) =
      stitchAll options.stitchWindow fs ++ [d] :=
    stitchAll_append fun f _ g hg => by
      obtain rfl : d = g := by simpa using hg
      exact hprecedes f d hd
  unfold assemble
  rw [hstitch, List.map_append]
  cases options.aggregate with
  | false => exact List.map_append
  | true =>
    simp only [if_true]
    rw [List.splitBy_append, List.filterMap_append]
    · have hrun : ([d].map classify).splitBy mergeable = [[d.classify]] := rfl
      rw [hrun]
      simp [joined?_singleton]
    · intro f _ g hg
      obtain rfl : d.classify = g := by simpa using hg
      rw [mergeable, hprecedes f _ ((kin_classify d).2.symm.trans hd), Bool.false_and]

/-! ## Assembling part by part -/

/-- Every fragment is divided into parts of its own frame. -/
structure IsDivision (part : Fragment → List Fragment) (us : List Fragment) : Prop where
  ne_nil : ∀ u ∈ us, part u ≠ []
  kin : ∀ u ∈ us, ∀ f ∈ part u, u.Kin f

theorem IsDivision.tail {part : Fragment → List Fragment} {u : Fragment} {us : List Fragment}
    (h : IsDivision part (u :: us)) : IsDivision part us :=
  ⟨fun v hv => h.ne_nil v (List.mem_cons_of_mem u hv),
    fun v hv => h.kin v (List.mem_cons_of_mem u hv)⟩

/-- The parts of a fragment lie apart from the part that comes next. -/
theorem IsDivision.apart_head {part : Fragment → List Fragment} {u : Fragment}
    {us : List Fragment} (h : IsDivision part (u :: us)) (hapart : (u :: us).IsChain Apart) :
    ∀ f ∈ part u, ∀ g ∈ (us.flatMap part).head?, f.Apart g := by
  intro f hf g hg
  cases us with
  | nil => cases hg
  | cons v us =>
    have huv : u.Apart v := (List.isChain_cons_cons.1 hapart).1
    refine huv.of_kin (h.kin u List.mem_cons_self f hf) (h.tail.kin v List.mem_cons_self g ?_)
    obtain ⟨x, xs, hx⟩ := List.exists_cons_of_ne_nil (h.tail.ne_nil v List.mem_cons_self)
    rw [List.flatMap_cons, hx] at hg
    obtain rfl : x = g := by simpa using hg
    simp [hx]

/-- What works on lists that stay apart one by one works part by part. -/
theorem flatMap_apart {α : Type} {part : Fragment → List Fragment} {us : List Fragment}
    (φ : List Fragment → List α) (hnil : φ [] = [])
    (happend : ∀ fs gs, (∀ f ∈ fs, ∀ g ∈ gs.head?, f.Apart g) → φ (fs ++ gs) = φ fs ++ φ gs)
    (hapart : us.IsChain Apart) (hpart : IsDivision part us) :
    φ (us.flatMap part) = us.flatMap (fun u => φ (part u)) := by
  induction us with
  | nil => exact hnil
  | cons u us ih =>
    rw [List.flatMap_cons, List.flatMap_cons, happend _ _ (hpart.apart_head hapart),
      ih hapart.tail hpart.tail]

/-- Neighbours among all parts are parts of one fragment, or they lie apart. -/
theorem isChain_flatMap {R : Fragment → Fragment → Prop} {part : Fragment → List Fragment}
    {us : List Fragment} (hapart : us.IsChain Apart) (hpart : IsDivision part us)
    (hwithin : ∀ u ∈ us, (part u).IsChain R) (hacross : ∀ f g : Fragment, f.Apart g → R f g) :
    (us.flatMap part).IsChain R := by
  induction us with
  | nil => exact .nil
  | cons u us ih =>
    rw [List.flatMap_cons, List.isChain_append]
    refine ⟨hwithin u List.mem_cons_self, ?_, ?_⟩
    · exact ih hapart.tail hpart.tail fun v hv => hwithin v (List.mem_cons_of_mem u hv)
    · intro f hf g hg
      exact hacross f g (hpart.apart_head hapart f (List.mem_of_getLast? hf) g hg)

theorem isDivision_stitchAll {part : Fragment → List Fragment} {us : List Fragment}
    (h : IsDivision part us) (window : Nat) :
    IsDivision (fun u => (stitchAll window (part u)).map classify) us := by
  refine ⟨fun u hu => ?_, fun u hu f hf => ?_⟩
  · simpa using stitchAll_ne_nil (h.ne_nil u hu)
  · obtain ⟨g, hg, rfl⟩ := List.mem_map.1 hf
    exact (kin_stitchAll (h.kin u hu) g hg).trans (kin_classify g)

/-- Stitched and classified, the parts of a fragment stay among themselves. -/
theorem stitchAll_flatMap {part : Fragment → List Fragment} {us : List Fragment}
    (hapart : us.IsChain Apart) (hpart : IsDivision part us) (window : Nat) :
    (stitchAll window (us.flatMap part)).map classify =
      us.flatMap fun u => (stitchAll window (part u)).map classify := by
  rw [flatMap_apart (stitchAll window) rfl ?_ hapart hpart, List.map_flatMap]
  intro fs gs h
  refine stitchAll_append fun f hf g hg => precedes_of_apart ?_
  have hkin : ∀ f ∈ stitchAll window fs, ∀ g ∈ gs.head?, f.Apart g :=
    stitchAll_forall (fun _ _ hfg hf g hg => (hf g hg).of_kin hfg ⟨rfl, rfl⟩) h
  exact hkin f (List.mem_of_getLast? hf) g hg

/-- Every fragment is assembled for itself. -/
theorem assemble_flatMap {part : Fragment → List Fragment} {us : List Fragment}
    (hapart : us.IsChain Apart) (hpart : IsDivision part us) (options : Options) :
    assemble options (us.flatMap part) = us.flatMap fun u => assemble options (part u) := by
  simp only [assemble, stitchAll_flatMap hapart hpart]
  cases options.aggregate with
  | false => simp [List.map_flatMap]
  | true =>
    simp only [if_true]
    rw [flatMap_apart (List.splitBy mergeable) rfl ?_ hapart
      (isDivision_stitchAll hpart options.stitchWindow), List.filterMap_flatMap]
    intro fs gs h
    refine List.splitBy_append fun f hf g hg => ?_
    exact mergeable_of_apart (h f (List.mem_of_getLast? hf) g hg)

end Fragment

end Polyglot
