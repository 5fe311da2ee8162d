-- SUMMARY: A boundary that is moved leaves the literals behind that begin in front of it.
import Polyglot.Proofs.Reslice

/-!
# Literals at a boundary

A fragment records the literals that begin in its text. Two fragments that are joined join what
they record, and a boundary that is kept changes nothing. But a boundary that is moved takes text
to the first fragment and leaves its literals with the second. So no literal is lost or doubled,
and all stay with their text unless one begins in what was moved
(`Fragment.locatesLiterals_stitch_iff`).
-/

namespace Polyglot

namespace Fragment

variable {f g : Fragment} {window : Nat} {moved : List Char}

/-- The literals of a fragment begin in its text. -/
def LocatesLiterals (f : Fragment) : Prop :=
  ∀ l ∈ f.literals, f.start.offset ≤ l.offset ∧ l.offset < f.stop.offset

instance (f : Fragment) : Decidable f.LocatesLiterals :=
  inferInstanceAs (Decidable (∀ l ∈ f.literals, _))

theorem offset_le_of_stop (h : f.stop = f.start.advanceOver f.content) :
    f.start.offset ≤ f.stop.offset := by
  rw [h, Position.advanceOver_offset]
  exact Nat.le_add_right _ _

/-- Fragments that are joined keep their literals with their text. -/
theorem LocatesLiterals.merge (hf : f.LocatesLiterals) (hg : g.LocatesLiterals)
    (hstart : f.start.offset ≤ f.stop.offset) (hstop : g.start.offset ≤ g.stop.offset)
    (hnext : f.stop.offset = g.start.offset) : (f.merge g).LocatesLiterals := by
  intro l hl
  change f.start.offset ≤ l.offset ∧ l.offset < g.stop.offset
  rcases List.mem_append.1 hl with hl | hl
  · have := hf l hl
    omega
  · have := hg l hl
    omega

/-- The first fragment grows around its literals. -/
theorem LocatesLiterals.shift_fst (hf : f.LocatesLiterals) (hnext : f.stop.offset = g.start.offset)
    (moved : List Char) : (f.shift g moved).1.LocatesLiterals := by
  intro l hl
  have hinside := hf l hl
  change f.start.offset ≤ l.offset ∧ l.offset < (g.start.advanceOver moved).offset
  rw [Position.advanceOver_offset]
  omega

/-- The second fragment shrinks, and keeps the literals that begin in what it gives up. -/
theorem LocatesLiterals.shift_snd_iff (hg : g.LocatesLiterals) (moved : List Char) :
    (f.shift g moved).2.LocatesLiterals ↔
      ∀ l ∈ g.literals, g.start.offset + byteLength moved ≤ l.offset := by
  have hstart : (f.shift g moved).2.start.offset = g.start.offset + byteLength moved :=
    Position.advanceOver_offset g.start moved
  constructor
  · intro h l hl
    rw [← hstart]
    exact (h l hl).1
  · intro h l hl
    rw [hstart]
    exact ⟨h l hl, (hg l hl).2⟩

theorem literals_stitch (f g : Fragment) (window : Nat) :
    (f.stitch window g).1.literals ++ ((f.stitch window g).2.map literals).getD [] =
      f.literals ++ g.literals := by
  unfold stitch
  split
  · split
    · rfl
    · exact List.append_nil _
    · rfl
  · rfl

/-- Of two fragments whose literals begin in their texts, every literal is recorded once when
they are stitched. It is recorded where it begins, unless the boundary is moved and the literal
begins in what is moved. -/
theorem locatesLiterals_stitch_iff (hf : f.stop = f.start.advanceOver f.content)
    (hg : g.stop = g.start.advanceOver g.content) (hfl : f.LocatesLiterals)
    (hgl : g.LocatesLiterals) (window : Nat) : ∃ first second, f.stitch window g = (first, second) ∧
      first.literals ++ (second.map literals).getD [] = f.literals ++ g.literals ∧
      ((first.LocatesLiterals ∧ ∀ k ∈ second, k.LocatesLiterals) ↔
        ∀ moved, f.precedes g → Boundary.between window f g = .shift moved →
          ∀ l ∈ g.literals, g.start.offset + byteLength moved ≤ l.offset) := by
  refine ⟨(f.stitch window g).1, (f.stitch window g).2, rfl, literals_stitch f g window, ?_⟩
  have hkept : f.LocatesLiterals ∧ ∀ k ∈ some g, k.LocatesLiterals :=
    ⟨hfl, fun k hk => Option.some.inj hk ▸ hgl⟩
  unfold stitch
  by_cases hnext : f.precedes g
  · have hoffset := (precedes_iff.1 hnext).1
    rw [if_pos hnext]
    cases hbetween : Boundary.between window f g with
    | keep => exact iff_of_true hkept fun moved _ hshift => by cases hshift
    | merge =>
      have hmerge := hfl.merge hgl (offset_le_of_stop hf) (offset_le_of_stop hg) hoffset
      exact iff_of_true ⟨hmerge, fun k hk => by cases hk⟩ fun moved _ hshift => by cases hshift
    | shift moved =>
      have hfirst := hfl.shift_fst hoffset moved
      -- only the second fragment can be left with a literal outside its text
      have hsecond := hgl.shift_snd_iff (f := f) moved
      constructor
      · rintro ⟨-, hrest⟩ other - hshift
        cases hshift
        exact hsecond.1 (hrest _ rfl)
      · intro h
        refine ⟨hfirst, fun k hk => ?_⟩
        obtain rfl := Option.some.inj hk
        exact hsecond.2 (h moved hnext rfl)
  · rw [if_neg hnext]
    exact iff_of_true hkept fun moved hprecedes => absurd hprecedes hnext

/-- Of two literals of the second fragment, one begins in the method that is moved. -/
theorem locatesLiterals_stitch_iff_click :
    let frame : Frame := ⟨.scriptLocal, 1, [.global], 1⟩
    let p : Position := ⟨4, 1, 5⟩
    let f := frame.fragment false 0 "\x7b\x7bbo".toList .start p
    let g := { frame.fragment false 1 "x\x7d\x7d->click(f);".toList p ⟨18, 1, 19⟩ with
      literals := [⟨9, "click".toList⟩, ⟨15, "f".toList⟩] }
    f.LocatesLiterals ∧ g.LocatesLiterals ∧
    Boundary.between 64 f g = .shift "x\x7d\x7d->click".toList ∧
    ∃ first second, f.stitch 64 g = (first, second) ∧
      first.literals ++ (second.map literals).getD [] = f.literals ++ g.literals ∧
      ((first.LocatesLiterals ∧ ∀ k ∈ second, k.LocatesLiterals) ↔
        ∀ moved, f.precedes g → Boundary.between 64 f g = .shift moved →
          ∀ l ∈ g.literals, g.start.offset + byteLength moved ≤ l.offset) := by
  intro frame p f g
  have hf : f.LocatesLiterals := by decide +kernel
  have hg : g.LocatesLiterals := by decide +kernel
  exact ⟨hf, hg, by decide +kernel,
    locatesLiterals_stitch_iff (by decide +kernel) (by decide +kernel) hf hg 64⟩

end Fragment

end Polyglot
