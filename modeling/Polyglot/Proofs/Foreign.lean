-- SUMMARY: The first foreign syntax of a script is the first one found in its statements.
import Polyglot.Classification
import Polyglot.Proofs.Excerpt
import Mathlib.Data.List.Find

/-!
# Foreign syntax in a script and in its statements

A marker of another sub-language holds no line feed and no semicolon, so none reaches
over a cut. A search through a script finds what the first of its statements with a
marker has (`foreignFrom_tiles`). What is found lies within the text that was searched.
-/

namespace Polyglot

open Cursor

/-- Markers that no cut can divide. -/
def Undivided (markers : List String) : Prop :=
  ∀ marker ∈ markers, marker.toList ≠ [] ∧ ∀ ch ∈ marker.toList, isBreak ch = false

theorem undivided_foreignMarkers : Undivided (foreignMarkers .scriptLocal) := by
  intro marker hmarker
  simp only [foreignMarkers, List.mem_cons, List.not_mem_nil, or_false] at hmarker
  rcases hmarker with rfl | rfl
  · exact ⟨by decide, by simp [isBreak]⟩
  · exact ⟨by decide, by simp [isBreak]⟩

variable {markers : List String} {c d e part : Cursor} {code : List Char}

/-! ## One step -/

/-- The search goes on behind a region. -/
theorem foreignFrom_region {set : GuardSet} {kind : GuardKind} {after : c.Later} (b : Bool)
    (h : c.front set = .region kind after) :
    foreignFrom markers set b c = foreignFrom markers set false after.cursor := by
  rw [foreignFrom.eq_def, h]

/-- A character of code begins a marker, or the search goes on behind it. -/
theorem foreignFrom_code {set : GuardSet} {ch : Char} {after : c.Later} (b : Bool)
    (h : c.front set = .code ch after) :
    foreignFrom markers set b c =
      match if b then none else markers.find? (standsAlone c) with
      | some marker => some (c.position, marker)
      | none => foreignFrom markers set (isNamePart ch) after.cursor := by
  have hstep := foreignFrom.eq_def markers set b c
  rw [h] at hstep
  exact hstep

theorem foreignFrom_nil {set : GuardSet} (b : Bool) (h : c.rest = []) :
    foreignFrom markers set b c = none := by
  rw [foreignFrom.eq_def, front_eq_finish_iff.2 h]

/-- A marker stands alone in the excerpt as it does in the whole text. -/
theorem standsAlone_agree {r : List Char} (h : Agree r c d) {marker : String}
    (hmarker : ∀ ch ∈ marker.toList, isBreak ch = false) :
    standsAlone c marker = standsAlone d marker := by
  have hstarts := h.startsWith hmarker
  have heat := h.eat hmarker
  unfold standsAlone
  rw [hstarts]
  cases hd : d.startsWith marker.toList with
  | false => rfl
  | true =>
    rw [Cursor.eat, Cursor.eat, hstarts, hd] at heat
    cases heat with
    | some hbehind =>
      have hhead := hbehind.head (p := isNamePart) (isBreak_imp (by decide) (by decide))
      simp only [String.length_toList] at hhead
      rw [hhead]

/-- At the end of a line it does not matter whether a name stands before it. -/
theorem foreignFrom_atLineEnd (hmarkers : Undivided markers) (h : AtLineEnd c.rest) (b : Bool) :
    foreignFrom markers .script b c = foreignFrom markers .script false c := by
  obtain ⟨pos, text⟩ := c
  cases text with
  | nil => rw [foreignFrom_nil b rfl, foreignFrom_nil false rfl]
  | cons ch text =>
    obtain rfl : ch = '\n' := by simpa [AtLineEnd] using h
    have hplain : GuardSet.script.Plain '\n' :=
      GuardSet.plain_of (by decide) (by decide) (.inr rfl)
    obtain ⟨after, hfront, -⟩ := front_eq_code (hplain text) pos
    have hnone : markers.find? (standsAlone ⟨pos, '\n' :: text⟩) = none := by
      rw [List.find?_eq_none]
      intro marker hmem
      obtain ⟨hne, hbreak⟩ := hmarkers marker hmem
      obtain ⟨x, more, hx⟩ := List.exists_cons_of_ne_nil hne
      have hfirst : x ≠ '\n' := by
        rintro rfl
        exact absurd (hbreak '\n' (by simp [hx])) (by decide)
      simp [standsAlone, Cursor.startsWith, hx, hfirst]
    rw [foreignFrom_code b hfront, foreignFrom_code false hfront, hnone]
    cases b <;> rfl

/-! ## Statement by statement -/

/-- A search through a script goes through an excerpt first. -/
theorem foreignFrom_excerpt (hmarkers : Undivided markers) (h : Excerpt c part e code) {b : Bool}
    (hb : part.rest = [] → b = false ∨ AtLineEnd e.rest) :
    foreignFrom markers .script b c =
      (foreignFrom markers .script b part).or (foreignFrom markers .script false e) := by
  induction hn : part.rest.length using Nat.strong_induction_on generalizing c part code b with
  | _ n ih =>
    by_cases hne : part.rest = []
    · rw [foreignFrom_nil b hne, Option.none_or, h.eq_of_nil hne]
      rcases hb hne with rfl | hline
      · rfl
      · exact foreignFrom_atLineEnd hmarkers hline b
    · cases h.ahead hne with
      | @region kind after after' whole piece more =>
        rw [foreignFrom_region b whole, foreignFrom_region b piece]
        exact ih _ (hn ▸ after'.length_lt) more (fun _ => .inl rfl) rfl
      | @code ch after after' rest whole piece split more =>
        have hfound : markers.find? (standsAlone c) = markers.find? (standsAlone part) :=
          List.find?_congr fun marker hmem =>
            standsAlone_agree (h.agree hne) (hmarkers marker hmem).2
        rw [foreignFrom_code b whole, foreignFrom_code b piece, hfound, h.position]
        split
        · rfl
        · refine ih _ (hn ▸ after'.length_lt) more (fun hnil => ?_) rfl
          -- this character is the last one before the stop
          have hlast : part.rest = [ch] := by rw [(front_code piece).1, hnil]
          rcases h.stop hne with hend | hline | ⟨u, hu⟩
          · exact .inr (by simp [AtLineEnd, hend])
          · exact .inr (by simp [AtLineEnd, hline])
          · have hsame : [] ++ [ch] = u ++ [';'] := hlast.symm.trans (h.read.unique hu)
            obtain rfl : ch = ';' := List.singleton_inj.1 (List.append_inj_right' hsame rfl)
            exact .inl (by decide)

/-- The first marker in a script is the first one in its statements. -/
theorem foreignFrom_tiles {c₀ : Cursor} {total : List Char} {fs : List Fragment}
    (hmarkers : Undivided markers) (hread : c₀.Passes .script total e) (hmatch : BracesMatch total)
    (hend : e.rest = []) (h : Fragment.Tiles c₀.IsCut c fs e) (hc : c = c₀ ∨ c₀.IsCut c) :
    foreignFrom markers .script false c =
      fs.findSome? fun f => foreignFrom markers .script false f.cursor := by
  induction fs generalizing c with
  | nil =>
    cases h
    exact foreignFrom_nil false hend
  | cons f fs ih =>
    cases h with
    | @cons _ d _ _ _ covers cut more =>
      obtain ⟨part, hexcerpt, -⟩ :=
        covers.excerpt hread hmatch hc cut ⟨_, more.consumes⟩
      rw [foreignFrom_excerpt hmarkers hexcerpt (fun _ => .inl rfl), ih more (.inr cut),
        List.findSome?_cons]
      cases foreignFrom markers .script false f.cursor <;> rfl

/-! ## Where foreign syntax is found -/

/-- What is found is one of the markers, and it stands in the text that was searched. -/
theorem foreignFrom_within {set : GuardSet} {b : Bool} {pos : Position} {marker : String}
    (h : foreignFrom markers set b c = some (pos, marker)) :
    ∃ d, c.Reaches d ∧ d.rest ≠ [] ∧ d.position = pos ∧ standsAlone d marker ∧
      marker ∈ markers := by
  fun_induction foreignFrom markers set b c with
  | case1 => cases h
  | case2 => cases h
  | case3 b c kind after hfront ih =>
    obtain ⟨d, hd, hfound⟩ := ih h
    exact ⟨d, after.reaches.trans hd, hfound⟩
  | case4 b c ch after hfront found hfound =>
    cases h
    cases b with
    | true => cases hfound
    | false =>
      have hstands : standsAlone c marker := List.find?_some (p := standsAlone c) hfound
      exact ⟨c, .refl c, by simp [(front_code hfront).1], rfl, hstands,
        List.mem_of_find?_eq_some hfound⟩
  | case5 b c ch after hfront hfound ih =>
    obtain ⟨d, hd, hfound⟩ := ih h
    exact ⟨d, after.reaches.trans hd, hfound⟩

end Polyglot
