-- SUMMARY: Excerpts: a script read from the text up to a stop is read as the whole script is.
import Polyglot.Proofs.Selector

/-!
# Excerpts of a script

A statement of a script is classified by its own text, while the script as a whole
is read on past its end. `Cursor.Excerpt` relates the two readers: both stand at one
place, and one of them sees only the text up to a stop. As long as that text is not
used up, both have the same items ahead (`Excerpt.ahead`).
-/

namespace Polyglot

namespace Cursor

/-- `part` sees of the text ahead of `c` only what lies in front of `e`. From `c` to `e`
the script is read by `code`, and it may be divided at `e`. -/
structure Excerpt (c part e : Cursor) (code : List Char) : Prop where
  position : part.position = c.position
  read : c.Consumes part.rest e
  passes : c.Passes .script code e
  stop : part.rest ≠ [] → c.IsStop e

variable {c part e : Cursor} {code : List Char}

theorem Excerpt.rest_eq (h : Excerpt c part e code) : c.rest = part.rest ++ e.rest := h.read.1

theorem Excerpt.eq_mk (h : Excerpt c part e code) : c = ⟨part.position, part.rest ++ e.rest⟩ := by
  rw [h.position, ← h.rest_eq]

/-- At its end the excerpt is used up. -/
theorem Excerpt.eq_of_nil (h : Excerpt c part e code) (hnil : part.rest = []) : c = e := by
  have hread := h.read
  rw [hnil] at hread
  exact hread.eq_of_nil.symm

/-- In front of a stop, a reader that meets no break sees as much in the excerpt. -/
theorem Excerpt.agree (h : Excerpt c part e code) (hne : part.rest ≠ []) :
    Agree e.rest c part := by
  refine ⟨h.rest_eq, ?_⟩
  rcases h.stop hne with hend | hline | ⟨u, hu⟩
  · exact .inl (by simp [hend])
  · exact .inl (by simp [hline, isBreak])
  · refine .inr ⟨';', ?_, rfl⟩
    rw [h.read.unique hu]
    simp

/-- Both readers move on over the same text. -/
theorem Excerpt.move (h : Excerpt c part e code) {x : Cursor} {u : List Char}
    (hpasses : c.Passes .script u x) {x' : Cursor} (hx' : part.Reaches x')
    (hrest : x.rest = x'.rest ++ e.rest) :
    ∃ more, code = u ++ more ∧ Excerpt x x' e more := by
  obtain ⟨t, ht⟩ := hpasses.reaches
  have htext : part.rest = t ++ x'.rest := by
    have happend : part.rest ++ e.rest = t ++ x'.rest ++ e.rest := by
      rw [← h.rest_eq, ht.1, hrest, List.append_assoc]
    exact List.append_cancel_right happend
  have hread : x.Consumes x'.rest e := by
    refine ⟨hrest, ?_⟩
    rw [h.read.2, htext, Position.advanceOver_append, ht.2]
  have hposition : x'.position = x.position := by
    rw [(hx'.consumes htext).2, h.position, ht.2]
  obtain ⟨more, hcode, hmore⟩ := hpasses.onward h.passes ⟨_, hread⟩
  refine ⟨more, hcode, hposition, hread, hmore, fun hne => ?_⟩
  have hpart : part.rest ≠ [] := by
    rw [htext]
    exact List.append_ne_nil_of_right_ne_nil t hne
  obtain ⟨ch, text, hx'⟩ := List.exists_cons_of_ne_nil hne
  exact (h.stop hpart).later ⟨t, ht⟩ ⟨ch, text, hx' ▸ hread⟩

/-- Both readers have read the same text on the way. -/
theorem Excerpt.consumes (h : Excerpt c part e code) {x x' : Cursor} {more text : List Char}
    (k : Excerpt x x' e more) (htext : c.Consumes text x) : part.Consumes text x' := by
  refine ⟨?_, by rw [k.position, htext.2, h.position]⟩
  have happend : part.rest ++ e.rest = text ++ x'.rest ++ e.rest := by
    rw [← h.rest_eq, htext.1, k.rest_eq, List.append_assoc]
  exact List.append_cancel_right happend

/-- What lies ahead of both readers. -/
inductive Excerpt.Ahead (c part e : Cursor) (code : List Char) : Prop where
  | region {kind : GuardKind} {after : c.Later} {after' : part.Later}
      (whole : c.front .script = .region kind after)
      (piece : part.front .script = .region kind after')
      (more : Excerpt after.cursor after'.cursor e code)
  | code {ch : Char} {after : c.Later} {after' : part.Later} {rest : List Char}
      (whole : c.front .script = .code ch after)
      (piece : part.front .script = .code ch after')
      (split : code = ch :: rest) (more : Excerpt after.cursor after'.cursor e rest)

/-- Both readers have the same ahead while there is text in the excerpt. -/
theorem Excerpt.ahead (h : Excerpt c part e code) (hne : part.rest ≠ []) :
    Excerpt.Ahead c part e code := by
  obtain ⟨p, text⟩ := part
  obtain ⟨hposition, hread, hpasses, hstop⟩ := id h
  obtain rfl : p = c.position := hposition
  cases hpasses with
  | refl => exact absurd (hread.unique (.refl c)) hne
  | @region _ _ kind after _ ahead more =>
    obtain ⟨u, hregion, hu, hline⟩ := front_eq_region ahead
    obtain ⟨w, hw⟩ := more.reaches
    obtain rfl : text = u ++ w := hread.unique (hu.trans hw)
    obtain ⟨after', hfront, hafter⟩ := front_of_isRegion (r := w) hregion (fun hk => by
      refine (hline hk).standsIn ?_
      cases w with
      | nil => exact .inl rfl
      | cons ch w => exact .inr (by rw [hw.1]; rfl)) c.position
    obtain ⟨rest, hrest, hmore⟩ := h.move (.region ahead (.refl _)) after'.reaches
      (by rw [hafter, hw.1])
    rw [List.nil_append] at hrest
    exact .region ahead hfront (hrest ▸ hmore)
  | @code _ _ ch after code ahead more =>
    obtain ⟨hrest, hpos⟩ := front_code ahead
    obtain ⟨w, hw⟩ := more.reaches
    obtain rfl : text = [ch] ++ w := hread.unique (Consumes.trans (b := after.cursor)
      ⟨hrest, hpos⟩ hw)
    have hkind : GuardSet.script.kindAt (ch :: w) = none := by
      refine GuardSet.kindAt_eq_none_of_standsIn rfl (r := after.cursor.rest) ?_ ?_
      · rw [← hrest]
        exact kindAt_of_front_code ahead
      · cases w with
        | nil => exact .inl rfl
        | cons ch w => exact .inr (by rw [hw.1]; rfl)
    obtain ⟨after', hfront, hafter⟩ := front_eq_code hkind c.position
    obtain ⟨rest, hsplit, hmore⟩ := h.move (.code ahead (.refl _)) after'.reaches
      (by rw [hafter, hw.1])
    exact .code ahead hfront hsplit hmore

end Cursor

/-- A fragment between two cuts of a script is an excerpt, and its braces match. -/
theorem Fragment.Covers.excerpt {c₀ c d e : Cursor} {total : List Char} {f : Fragment}
    (hf : f.Covers c d) (hread : c₀.Passes .script total e) (hmatch : BracesMatch total)
    (hc : c = c₀ ∨ c₀.IsCut c) (hd : c₀.IsCut d) (hde : d.Reaches e) :
    ∃ part, Cursor.Excerpt c f.cursor d part ∧ BracesMatch part := by
  obtain ⟨part, hpart, hbraces⟩ := Cursor.IsCut.between hread hmatch hc hd ⟨_, hf.read⟩ hde
  refine ⟨part, ⟨hf.start, hf.read, hpart, fun _ => ?_⟩, hbraces⟩
  have hreach : c₀.Reaches c := by
    rcases hc with rfl | hc
    · exact .refl c
    · exact hc.read.choose_spec.1.reaches
  obtain ⟨ch, text, htext⟩ := List.exists_cons_of_ne_nil hf.text
  exact hd.stop.later hreach ⟨ch, text, htext ▸ hf.read⟩

end Polyglot
