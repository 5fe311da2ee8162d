-- SUMMARY: Readings: what a walk by whole regions and single characters of code passes over.
import Polyglot.Proofs.Region

/-!
# Readings

Every walk over a document takes whole guarded regions and single characters of
code. `Cursor.Passes` is such a walk from one cursor to another, with the
characters of code that it met. Two readings from one cursor never disagree
(`Passes.linear`), and a reading does not depend on the text behind it
(`Passes.stands`).
-/

namespace Polyglot

namespace Cursor

/-- A walk from one cursor to another by whole regions and characters of code, and
those characters. -/
inductive Passes (set : GuardSet) : Cursor → List Char → Cursor → Prop where
  | refl (c : Cursor) : Passes set c [] c
  | region {c d : Cursor} {kind : GuardKind} {after : c.Later} {code : List Char}
      (ahead : c.front set = .region kind after) (more : Passes set after.cursor code d) :
      Passes set c code d
  | code {c d : Cursor} {ch : Char} {after : c.Later} {code : List Char}
      (ahead : c.front set = .code ch after) (more : Passes set after.cursor code d) :
      Passes set c (ch :: code) d

variable {set : GuardSet}

theorem Passes.trans {c d e : Cursor} {u v : List Char} (h : c.Passes set u d)
    (k : d.Passes set v e) : c.Passes set (u ++ v) e := by
  induction h with
  | refl => exact k
  | region ahead _ ih => exact .region ahead (ih k)
  | code ahead _ ih => exact .code ahead (ih k)

theorem Passes.reaches {c d : Cursor} {code : List Char} (h : c.Passes set code d) :
    c.Reaches d := by
  induction h with
  | refl c => exact Reaches.refl c
  | @region _ _ _ after _ _ _ ih => exact after.reaches.trans ih
  | @code _ _ _ after _ _ _ ih => exact after.reaches.trans ih

/-- Of two readings from one cursor, one goes on where the other ends. -/
theorem Passes.linear {c d e : Cursor} {u v : List Char} (h : c.Passes set u d)
    (k : c.Passes set v e) :
    (∃ w, v = u ++ w ∧ d.Passes set w e) ∨ (∃ w, u = v ++ w ∧ e.Passes set w d) := by
  induction h generalizing v with
  | refl => exact .inl ⟨v, rfl, k⟩
  | @region c d kind after u ahead more ih =>
    cases k with
    | refl => exact .inr ⟨u, rfl, .region ahead more⟩
    | region ahead' more' =>
      rw [ahead] at ahead'
      cases ahead'
      exact ih more'
    | code ahead' more' =>
      rw [ahead] at ahead'
      cases ahead'
  | @code c d ch after u ahead more ih =>
    cases k with
    | refl => exact .inr ⟨ch :: u, rfl, .code ahead more⟩
    | region ahead' more' =>
      rw [ahead] at ahead'
      cases ahead'
    | code ahead' more' =>
      rw [ahead] at ahead'
      cases ahead'
      rcases ih more' with ⟨w, hw, hp⟩ | ⟨w, hw, hp⟩
      · exact .inl ⟨w, congrArg (ch :: ·) hw, hp⟩
      · exact .inr ⟨w, congrArg (ch :: ·) hw, hp⟩

/-- Where one reading goes further, it goes on from the end of the other. -/
theorem Passes.onward {c d e : Cursor} {u v : List Char} (h : c.Passes set u d)
    (k : c.Passes set v e) (hle : d.Reaches e) : ∃ w, v = u ++ w ∧ d.Passes set w e := by
  rcases h.linear k with hw | ⟨w, rfl, hp⟩
  · exact hw
  · obtain ⟨x, hx⟩ := hle
    obtain ⟨y, hy⟩ := hp.reaches
    have hxy : x ++ y = [] := (hx.trans hy).unique (Consumes.refl d)
    obtain ⟨rfl, rfl⟩ := List.append_eq_nil_iff.1 hxy
    obtain rfl : e = d := hx.eq_of_nil
    cases hp with
    | refl => exact ⟨[], by simp, .refl e⟩
    | @region _ _ _ after _ _ more =>
      have := after.length_lt
      have := more.reaches.choose_spec.length_le
      omega
    | @code _ _ _ after _ _ more =>
      have := after.length_lt
      have := more.reaches.choose_spec.length_le
      omega

/-- The code met on the way is part of the text read. -/
theorem Passes.mem_of_mem {c d : Cursor} {code u : List Char} (h : c.Passes set code d)
    (hu : c.Consumes u d) {ch : Char} (hch : ch ∈ code) : ch ∈ u := by
  induction h generalizing u with
  | refl => cases hch
  | @region c d kind after code ahead more ih =>
    obtain ⟨v, hv⟩ := after.reaches
    obtain ⟨w, hw⟩ := more.reaches
    rw [hu.unique (hv.trans hw)]
    exact List.mem_append_right v (ih hw hch)
  | @code c d x after code ahead more ih =>
    obtain ⟨hrest, hpos⟩ := front_code ahead
    obtain ⟨w, hw⟩ := more.reaches
    have hx : c.Consumes [x] after.cursor := ⟨hrest, hpos⟩
    rw [hu.unique (hx.trans hw)]
    rcases List.mem_cons.1 hch with rfl | hch
    · simp
    · exact List.mem_append_right _ (ih hw hch)

end Cursor

/-- A region is read to its end where nothing follows it. -/
theorem IsRegion.passes_alone {set : GuardSet} {kind : GuardKind} {u : List Char}
    (h : IsRegion set kind u) (p : Position) :
    Cursor.Passes set ⟨p, u⟩ [] ⟨p.advanceOver u, []⟩ := by
  obtain ⟨after, hfront, hafter⟩ := Cursor.front_of_isRegion (r := []) h (fun _ => rfl) p
  have hread : Cursor.Passes set ⟨p, u ++ []⟩ [] after.cursor := .region hfront (.refl _)
  rwa [hafter, List.append_nil] at hread

/-! ## Plain characters -/

/-- No region begins with this character. -/
def GuardSet.Plain (set : GuardSet) (ch : Char) : Prop := ∀ r, set.kindAt (ch :: r) = none

/-- Quotes apart, only slashes and hyphens begin regions. -/
theorem GuardSet.plain_of {set : GuardSet} {ch : Char} (hquote : ch ∉ set.quotes)
    (hslash : ch ≠ '/') (hhyphen : ch ≠ '-' ∨ set.generatorComments = false) :
    set.Plain ch := by
  intro r
  cases hk : set.kindAt (ch :: r) with
  | none => rfl
  | some kind =>
    exfalso
    cases kind with
    | string => exact hquote (GuardSet.kindAt_string_iff.1 hk)
    | lineComment => exact hslash (GuardSet.kindAt_lineComment_iff.1 hk).2.2.1
    | blockComment => exact hslash (GuardSet.kindAt_blockComment_iff.1 hk).2.2.1
    | generatorComment =>
      obtain ⟨-, hon, rfl, -⟩ := GuardSet.kindAt_generatorComment_iff.1 hk
      rcases hhyphen with h | h
      · exact h rfl
      · simp [h] at hon

/-- A class of characters without quotes and slashes. -/
theorem GuardSet.plain_of_class {q : Char → Bool} (hdouble : q '"' = false)
    (hsingle : q '\'' = false) (hback : q '`' = false) (hslash : q '/' = false) {ch : Char}
    (h : q ch) : GuardSet.script.Plain ch := by
  have hne : ∀ x, q x = false → ch ≠ x := by
    rintro x hx rfl
    simp [hx] at h
  refine plain_of ?_ (hne '/' hslash) (.inr rfl)
  simpa [script] using ⟨hne _ hdouble, hne _ hsingle, hne _ hback⟩

namespace Cursor

variable {set : GuardSet}

/-- Plain characters are code, one by one. -/
theorem passes_of_plain {u : List Char} (h : ∀ ch ∈ u, set.Plain ch) (p : Position)
    (r : List Char) : Passes set ⟨p, u ++ r⟩ u ⟨p.advanceOver u, r⟩ := by
  induction u generalizing p with
  | nil => exact .refl _
  | cons ch u ih =>
    obtain ⟨after, hfront, hafter⟩ := front_eq_code (h ch List.mem_cons_self (u ++ r)) p
    refine .code hfront ?_
    rw [hafter]
    exact ih (fun x hx => h x (List.mem_cons_of_mem ch hx)) _

theorem Consumes.passes_of_plain {c d : Cursor} {u : List Char} (h : c.Consumes u d)
    (hu : ∀ ch ∈ u, set.Plain ch) : c.Passes set u d := by
  have hp := Cursor.passes_of_plain hu c.position d.rest
  rwa [← h.1, ← h.eq_mk] at hp

/-! ## The text behind a reading -/

/-- A reading is the same wherever its text lies and whatever may stand behind it. -/
theorem Passes.stands {c d : Cursor} {code u r' : List Char} (h : c.Passes set code d)
    (hgen : set.generatorComments = false) (hu : c.rest = u ++ d.rest)
    (hs : StandsIn r' d.rest) (p : Position) :
    Passes set ⟨p, u ++ r'⟩ code ⟨p.advanceOver u, r'⟩ := by
  induction h generalizing u p with
  | refl c =>
    obtain rfl : u = [] := by simpa using hu
    exact .refl _
  | @region c d kind after code ahead more ih =>
    obtain ⟨v, hregion, hv, hline⟩ := front_eq_region ahead
    obtain ⟨w, hw⟩ := more.reaches
    obtain rfl : u = v ++ w :=
      List.append_cancel_right (hu.symm.trans (hv.trans hw).1)
    have hw' : AtLineEnd after.cursor.rest → AtLineEnd (w ++ r') := fun hend =>
      hend.standsIn (hw.1 ▸ hs.append w)
    obtain ⟨after', hfront, hafter⟩ :=
      front_of_isRegion hregion (fun hk => hw' (hline hk)) p
    rw [List.append_assoc]
    refine .region hfront ?_
    rw [hafter, Position.advanceOver_append]
    exact ih hw.1 hs _
  | @code c d ch after code ahead more ih =>
    obtain ⟨hrest, hpos⟩ := front_code ahead
    obtain ⟨w, hw⟩ := more.reaches
    obtain rfl : u = ch :: w := by
      rw [hrest, hw.1] at hu
      exact List.append_cancel_right (hu.symm.trans (List.cons_append ..).symm)
    have hkind : set.kindAt (ch :: (w ++ r')) = none := by
      refine GuardSet.kindAt_eq_none_of_standsIn hgen ?_ (hw.1 ▸ hs.append w)
      rw [← hrest]
      exact kindAt_of_front_code ahead
    obtain ⟨after', hfront, hafter⟩ := front_eq_code hkind p
    refine .code hfront ?_
    rw [hafter]
    exact ih hw.1 hs _

/-! ## Points in a reading -/

/-- Where a point lies in a reading from `c` to `d`, if `u` is the text before it and
`v` the text behind it. -/
inductive Point (set : GuardSet) (c d : Cursor) (code u v : List Char) : Prop where
  /-- Between two items. -/
  | between {code₁ code₂ : List Char} (split : code = code₁ ++ code₂)
      (before : c.Passes set code₁ ⟨c.position.advanceOver u, v ++ d.rest⟩)
      (behind : Passes set ⟨c.position.advanceOver u, v ++ d.rest⟩ code₂ d)
  /-- Inside a region, whose text is `x ++ y`. -/
  | inside {kind : GuardKind} {code₁ code₂ a x y z : List Char} (split : code = code₁ ++ code₂)
      (hu : u = a ++ x) (hv : v = y ++ z) (hx : x ≠ []) (hy : y ≠ [])
      (region : IsRegion set kind (x ++ y))
      (before : c.Passes set code₁ ⟨c.position.advanceOver a, x ++ (v ++ d.rest)⟩)
      (behind : Passes set ⟨c.position.advanceOver (u ++ y), z ++ d.rest⟩ code₂ d)

/-- A reading that begins earlier has the point where the shorter one has it. -/
theorem Point.prepend {c m d : Cursor} {code₀ code t u v : List Char}
    (h : c.Passes set code₀ m) (ht : c.Consumes t m) (k : Point set m d code u v) :
    Point set c d (code₀ ++ code) (t ++ u) v := by
  obtain ⟨-, hpos⟩ := ht
  cases k with
  | @between code₁ code₂ split before behind =>
    rw [hpos, ← Position.advanceOver_append] at before behind
    exact .between (by rw [split, List.append_assoc]) (h.trans before) behind
  | @inside kind code₁ code₂ a x y z split hu hv hx hy region before behind =>
    rw [hpos, ← Position.advanceOver_append] at before behind
    rw [← List.append_assoc] at behind
    exact .inside (a := t ++ a) (by rw [split, List.append_assoc]) (by simp [hu]) hv hx hy region
      (h.trans before) behind

theorem Point.start {c d : Cursor} {code v : List Char} (h : c.Passes set code d)
    (hv : c.rest = v ++ d.rest) : Point set c d code [] v := by
  obtain ⟨p, r⟩ := c
  obtain rfl : r = v ++ d.rest := hv
  exact .between (List.nil_append code).symm (.refl _) h

/-- Every point of a text that was read lies somewhere in the reading. -/
theorem Passes.point {c d : Cursor} {code u v : List Char} (h : c.Passes set code d)
    (hu : c.rest = u ++ (v ++ d.rest)) : Point set c d code u v := by
  induction h generalizing u with
  | refl c =>
    obtain ⟨rfl, rfl⟩ : u = [] ∧ v = [] := by
      have hrest : [] ++ c.rest = u ++ v ++ c.rest := by simpa using hu
      have := List.append_cancel_right hrest
      simpa using this.symm
    exact .start (.refl c) rfl
  | @region c d kind after code ahead more ih =>
    obtain ⟨t, hregion, ht, -⟩ := front_eq_region ahead
    obtain ⟨w, hw⟩ := more.reaches
    have htw : u ++ v = t ++ w := by
      have := hu.symm.trans (ht.trans hw).1
      exact List.append_cancel_right (by simpa using this)
    have hstep : c.Passes set [] after.cursor := .region ahead (.refl _)
    rcases List.append_eq_append_iff.1 htw with ⟨s, rfl, rfl⟩ | ⟨s, rfl, rfl⟩
    · -- the point lies in the region or at one of its ends
      by_cases hnil : u = []
      · subst hnil
        exact .start (.region ahead more) hu
      by_cases hend : s = []
      · subst hend
        have := Point.prepend hstep ht (Point.start more hw.1)
        simpa using this
      · obtain ⟨p, r⟩ := c
        obtain rfl : r = u ++ (s ++ w ++ d.rest) := hu
        refine .inside (a := []) (List.nil_append code).symm rfl rfl hnil hend hregion
          (.refl _) ?_
        have hafter := ht.eq_mk
        rw [hw.1] at hafter
        rwa [hafter] at more
    · exact Point.prepend hstep ht (ih (by rw [hw.1]; simp))
  | @code c d ch after code ahead more ih =>
    obtain ⟨hrest, hpos⟩ := front_code ahead
    have hstep : c.Passes set [ch] after.cursor := .code ahead (.refl _)
    cases u with
    | nil => exact .start (.code ahead more) hu
    | cons x u =>
      rw [hrest] at hu
      obtain ⟨rfl, hu'⟩ : ch = x ∧ after.cursor.rest = u ++ (v ++ d.rest) := by simpa using hu
      exact Point.prepend (t := [ch]) hstep ⟨hrest, hpos⟩ (ih hu')

/-! ## Places in code -/

/-- A reading from `c` comes to a character of code at `d`: `d` lies outside of strings and
comments. -/
def Unguarded (set : GuardSet) (c d : Cursor) : Prop :=
  (∃ code, c.Passes set code d) ∧ ∃ ch after, d.front set = .code ch after

theorem unguarded_code {c e : Cursor} {ch : Char} {after : c.Later}
    (h : c.front set = .code ch after) :
    c.Unguarded set e ↔ e = c ∨ after.cursor.Unguarded set e := by
  constructor
  · rintro ⟨⟨code, hread⟩, hcode⟩
    cases hread with
    | refl => exact .inl rfl
    | region ahead more => cases h.symm.trans ahead
    | code ahead more =>
      cases h.symm.trans ahead
      exact .inr ⟨⟨_, more⟩, hcode⟩
  · rintro (rfl | ⟨⟨code, hread⟩, hcode⟩)
    · exact ⟨⟨[], .refl e⟩, ch, after, h⟩
    · exact ⟨⟨_, .code h hread⟩, hcode⟩

theorem unguarded_region {c e : Cursor} {kind : GuardKind} {after : c.Later}
    (h : c.front set = .region kind after) :
    c.Unguarded set e ↔ after.cursor.Unguarded set e := by
  constructor
  · rintro ⟨⟨code, hread⟩, hcode⟩
    cases hread with
    | refl =>
      obtain ⟨ch, _, hcode⟩ := hcode
      cases h.symm.trans hcode
    | region ahead more =>
      cases h.symm.trans ahead
      exact ⟨⟨_, more⟩, hcode⟩
    | code ahead more => cases h.symm.trans ahead
  · rintro ⟨⟨code, hread⟩, hcode⟩
    exact ⟨⟨_, .region h hread⟩, hcode⟩

/-- At the end of the text, and in a region that never ends, no more code is met. -/
theorem not_unguarded {c e : Cursor} (hcode : ∀ ch after, c.front set ≠ .code ch after)
    (hregion : ∀ kind after, c.front set ≠ .region kind after) : ¬ c.Unguarded set e := by
  rintro ⟨⟨code, hread⟩, ch, after, hfront⟩
  cases hread with
  | refl => exact hcode ch after hfront
  | region ahead more => exact hregion _ _ ahead
  | code ahead more => exact hcode _ _ ahead

/-- A place in code lies behind the end of another reading, or on its way. -/
theorem Unguarded.split {c d e : Cursor} {code text : List Char} (h : c.Unguarded set e)
    (hread : c.Passes set code d) (htext : c.Consumes text d) :
    d.Unguarded set e ∨ ∃ u v, text = u ++ v ∧ v ≠ [] ∧ c.Consumes u e ∧ e.Consumes v d := by
  obtain ⟨⟨_, hpass⟩, hcode⟩ := h
  rcases hread.linear hpass with ⟨w, -, hde⟩ | ⟨w, -, hed⟩
  · exact .inl ⟨⟨w, hde⟩, hcode⟩
  · obtain ⟨u, hu⟩ := hpass.reaches
    obtain ⟨v, hv⟩ := hed.reaches
    by_cases hnil : v = []
    · subst hnil
      rw [hv.eq_of_nil]
      exact .inl ⟨⟨[], .refl e⟩, hcode⟩
    · exact .inr ⟨u, v, htext.unique (hu.trans hv), hnil, hu, hv⟩

theorem Unguarded.behind {c d e : Cursor} {code : List Char} (hread : c.Passes set code d)
    (h : d.Unguarded set e) : c.Unguarded set e := by
  obtain ⟨⟨_, hpass⟩, hcode⟩ := h
  exact ⟨⟨_, hread.trans hpass⟩, hcode⟩

end Cursor

end Polyglot
