-- SUMMARY: Foreign words in a style sheet are whole words of a script, not of the style sheet.
import Polyglot.Proofs.Brace
import Polyglot.Proofs.Foreign
import Polyglot.Proofs.Operation

/-!
# Words in a style sheet

The search for foreign syntax reports a word only where no name goes on with it. The names that
it knows are those of a script, in a style sheet as well. There a hyphen and every character
beyond ASCII belong to a name, and a dollar sign does not. So the first whole word of the style
sheet is reported exactly if no such character stands beside what is reported, and no dollar
sign beside a word in front of it (`Fragment.isFirst_foreignSyntax`).
-/

namespace Polyglot

/-- A letter, digit, underscore or hyphen, or any character beyond ASCII: continues a name in a
style sheet. -/
def isStyleNamePart (ch : Char) : Bool := ch.isAlphanum || ch = '_' || ch = '-' || !isAscii ch

namespace Cursor

/-- The character stands beside the marker that lies at `d`, in front of it or behind it. -/
def Touches (c d : Cursor) (marker : String) (ch : Char) : Prop :=
  (∃ u, c.Consumes (u ++ [ch]) d) ∨ (d.rest.drop marker.length).head? = some ch

/-- The marker lies at `d`, outside of strings and comments, and no name goes on with it. -/
structure Whole (part : Char → Bool) (c d : Cursor) (marker : String) : Prop where
  code : c.Unguarded .style d
  ahead : marker.toList <+: d.rest
  alone : ∀ ch, c.Touches d marker ch → part ch = false

theorem Whole.reaches {part : Char → Bool} {c d : Cursor} {marker : String}
    (h : c.Whole part d marker) : c.Reaches d := by
  obtain ⟨code, hpass⟩ := h.code.1
  exact hpass.reaches

/-- The marker and the place are the first where a marker is a whole word, or there is none. -/
def IsFirst (part : Char → Bool) (markers : List String) (c : Cursor) :
    Option (Position × String) → Prop
  | none => ∀ d, ∀ marker ∈ markers, ¬ c.Whole part d marker
  | some (pos, marker) => marker ∈ markers ∧ ∃ d, d.position = pos ∧ c.Whole part d marker ∧
      ∀ e, ∀ m ∈ markers, c.Whole part e m → d.Reaches e

/-! ## The search -/

/-- The search has come from `c₀` to `c` and has met no whole marker on its way. -/
structure Searched (markers : List String) (c₀ c : Cursor) (inName : Bool) : Prop where
  read : ∃ code, c₀.Passes .style code c
  before : inName ↔ ∃ u ch, c₀.Consumes (u ++ [ch]) c ∧ isNamePart ch
  onward : ∀ e, ∀ m ∈ markers, c₀.Whole isNamePart e m → c.Unguarded .style e

variable {markers : List String} {c₀ c d e : Cursor} {b : Bool} {marker : String}

theorem Searched.start (markers : List String) (c : Cursor) : Searched markers c c false where
  read := ⟨[], .refl c⟩
  before := by
    refine iff_of_false (by simp) ?_
    rintro ⟨u, ch, hread, -⟩
    simpa using hread.unique (.refl c)
  onward _ _ _ h := h.code

/-- A region in a style sheet is a string or a block comment, so it ends in no character of a
name. -/
theorem not_isNamePart_of_region {kind : GuardKind} {u : List Char} {ch : Char}
    (h : IsRegion .style kind (u ++ [ch])) : isNamePart ch = false := by
  have hkind : ¬ kind.isLine := by
    generalize u ++ [ch] = text at h
    cases h with
    | string | blockComment => decide
    | lineComment _ on | generatorComment _ on => simp [GuardSet.style] at on
  rcases h.last (by simp [GuardSet.style, GuardSet.script]) hkind with rfl | hquote
  · decide
  · simp only [GuardSet.script, List.mem_cons, List.not_mem_nil, or_false] at hquote
    rcases hquote with rfl | rfl | rfl <;> decide

/-- There is only one character in front of a place. -/
theorem Consumes.last_eq {u v : List Char} {x y : Char} (h : c.Consumes (u ++ [x]) d)
    (k : c.Consumes (v ++ [y]) d) : x = y :=
  List.singleton_inj.1 (List.append_inj_right' (h.unique k) rfl)

theorem Searched.region (h : Searched markers c₀ c b) {kind : GuardKind} {after : c.Later}
    (hfront : c.front .style = .region kind after) : Searched markers c₀ after.cursor false where
  read := by
    obtain ⟨code, hread⟩ := h.read
    exact ⟨_, hread.trans (.region hfront (.refl _))⟩
  before := by
    refine iff_of_false (by simp) ?_
    rintro ⟨u, ch, hread, hch⟩
    obtain ⟨code, hpass⟩ := h.read
    obtain ⟨v, hv⟩ := hpass.reaches
    obtain ⟨w, hregion, hw, -⟩ := front_eq_region hfront
    have hne : w ≠ [] := by
      rintro rfl
      cases hregion
    obtain ⟨w, x, rfl⟩ := (List.eq_nil_or_concat' w).resolve_left hne
    have hlast : c₀.Consumes (v ++ w ++ [x]) after.cursor := by
      rw [List.append_assoc]
      exact hv.trans hw
    rw [hread.last_eq hlast, not_isNamePart_of_region hregion] at hch
    cases hch
  onward e m hm hwhole := (unguarded_region hfront).1 (h.onward e m hm hwhole)

/-- A marker is a whole word where the search stands if it stands alone and the search is not
inside a name. -/
theorem Searched.whole_iff (h : Searched markers c₀ c b) {ch : Char} {after : c.Later}
    (hfront : c.front .style = .code ch after) :
    c₀.Whole isNamePart c marker ↔ b = false ∧ standsAlone c marker := by
  have hbehind : (c.rest.drop marker.length).head?.any isNamePart = false ↔
      ∀ x, (c.rest.drop marker.length).head? = some x → isNamePart x = false := by
    cases (c.rest.drop marker.length).head? <;> simp
  have hahead : c.startsWith marker.toList ↔ marker.toList <+: c.rest := List.isPrefixOf_iff_prefix
  rw [standsAlone, Bool.and_eq_true, Bool.not_eq_true', hbehind, hahead]
  constructor
  · intro hwhole
    refine ⟨?_, hwhole.ahead, fun x hx => hwhole.alone x (.inr hx)⟩
    rw [← Bool.not_eq_true, h.before]
    rintro ⟨u, x, hread, hx⟩
    simp [hwhole.alone x (.inl ⟨u, hread⟩)] at hx
  · rintro ⟨rfl, hprefix, hnext⟩
    refine ⟨⟨h.read, ch, after, hfront⟩, hprefix, fun x hx => ?_⟩
    rcases hx with ⟨u, hread⟩ | hx
    · rw [← Bool.not_eq_true]
      intro hpart
      exact absurd (h.before.2 ⟨u, x, hread, hpart⟩) (by simp)
    · exact hnext x hx

theorem Searched.code (h : Searched markers c₀ c b) {ch : Char} {after : c.Later}
    (hfront : c.front .style = .code ch after)
    (hnone : (if b then none else markers.find? (standsAlone c)) = none) :
    Searched markers c₀ after.cursor (isNamePart ch) where
  read := by
    obtain ⟨code, hread⟩ := h.read
    exact ⟨_, hread.trans (.code hfront (.refl _))⟩
  before := by
    obtain ⟨code, hpass⟩ := h.read
    obtain ⟨v, hv⟩ := hpass.reaches
    have hlast : c₀.Consumes (v ++ [ch]) after.cursor := hv.trans (front_code hfront)
    constructor
    · exact fun hch => ⟨v, ch, hlast, hch⟩
    · rintro ⟨u, x, hread, hx⟩
      rwa [hlast.last_eq hread]
  onward e m hm hwhole := by
    rcases (unguarded_code hfront).1 (h.onward e m hm hwhole) with rfl | he
    · obtain ⟨rfl, hstands⟩ := (h.whole_iff hfront).1 hwhole
      exact absurd hstands (List.find?_eq_none.1 hnone m hm)
    · exact he

/-- What the search finds is the first marker that is a whole word of a script. -/
theorem Searched.isFirst (h : Searched markers c₀ c b) :
    IsFirst isNamePart markers c₀ (foreignFrom markers .style b c) := by
  fun_induction foreignFrom markers .style b c with
  | case1 b c hfront =>
    exact fun e m hm hwhole => not_unguarded (by simp [hfront]) (by simp [hfront])
      (h.onward e m hm hwhole)
  | case2 b c issue atEnd hfront =>
    exact fun e m hm hwhole => not_unguarded (by simp [hfront]) (by simp [hfront])
      (h.onward e m hm hwhole)
  | case3 b c kind after hfront ih => exact ih (h.region hfront)
  | case4 b c ch after hfront marker hfound =>
    cases b with
    | true => cases hfound
    | false =>
      have hstands : standsAlone c marker := List.find?_some (p := standsAlone c) hfound
      refine ⟨List.mem_of_find?_eq_some hfound, c, rfl, (h.whole_iff hfront).2 ⟨rfl, hstands⟩, ?_⟩
      intro e m hm hwhole
      obtain ⟨code, hpass⟩ := (h.onward e m hm hwhole).1
      exact hpass.reaches
  | case5 b c ch after hfront hfound ih => exact ih (h.code hfront hfound)

/-! ## Two notions of a word -/

theorem isStyleNamePart_eq_false {ch : Char} (hname : isNamePart ch = false) (hhyphen : ch ≠ '-')
    (hascii : isAscii ch) : isStyleNamePart ch = false := by
  simp_all [isStyleNamePart, isNamePart]

/-- A whole word of the style sheet is one of a script, unless a dollar sign stands beside it. -/
theorem Whole.script_or_dollar (h : c.Whole isStyleNamePart d marker) :
    c.Whole isNamePart d marker ∨ c.Touches d marker '$' := by
  by_cases hdollar : c.Touches d marker '$'
  · exact .inr hdollar
  · refine .inl ⟨h.code, h.ahead, fun ch hch => ?_⟩
    have hne : ch ≠ '$' := by
      rintro rfl
      exact hdollar hch
    have hstyle := h.alone ch hch
    simp_all [isStyleNamePart, isNamePart]

/-- When the first whole word of a script is the first one of the style sheet as well: what is
reported must be one, and none may be hidden by a dollar sign in front of it. -/
theorem isFirst_style_iff {r : Option (Position × String)} (h : IsFirst isNamePart markers c r) :
    IsFirst isStyleNamePart markers c r ↔
      (∀ d marker, c.Reaches d → r = some (d.position, marker) →
        ∀ ch, c.Touches d marker ch → ch ≠ '-' ∧ isAscii ch) ∧
      (∀ e, ∀ m ∈ markers, c.Whole isStyleNamePart e m → c.Touches e m '$' →
        ∃ d marker, r = some (d.position, marker) ∧ c.Reaches d ∧ d.Reaches e) := by
  cases r with
  | none =>
    constructor
    · exact fun hno => ⟨fun _ _ _ hr => (nomatch hr),
        fun e m hm hwhole => absurd hwhole (hno e m hm)⟩
    · rintro ⟨-, hdollar⟩ e m hm hwhole
      rcases hwhole.script_or_dollar with hscript | htouches
      · exact h e m hm hscript
      · obtain ⟨d, marker, hr, -⟩ := hdollar e m hm hwhole htouches
        cases hr
  | some found =>
    obtain ⟨pos, marker⟩ := found
    obtain ⟨hmem, d, rfl, hd, hleast⟩ := h
    have hplace : ∀ e, c.Reaches e → e.position = d.position → e = d := fun e he hpos =>
      he.eq_of_offset_eq hd.reaches (congrArg Position.offset hpos)
    constructor
    · rintro ⟨-, d', hpos, hd', hleast'⟩
      obtain rfl := hplace d' hd'.reaches hpos
      refine ⟨fun e m he hr ch hch => ?_, fun e m hm hwhole _ => ?_⟩
      · obtain ⟨hpos, rfl⟩ := Prod.mk.inj (Option.some.inj hr)
        obtain rfl := hplace e he hpos.symm
        have hstyle := hd'.alone ch hch
        simp_all [isStyleNamePart]
      · exact ⟨d', marker, rfl, hd.reaches, hleast' e m hm hwhole⟩
    · rintro ⟨halone, hdollar⟩
      refine ⟨hmem, d, rfl, ⟨hd.code, hd.ahead, fun ch hch => ?_⟩, fun e m hm hwhole => ?_⟩
      · obtain ⟨hhyphen, hascii⟩ := halone d marker hd.reaches rfl ch hch
        exact isStyleNamePart_eq_false (hd.alone ch hch) hhyphen hascii
      · rcases hwhole.script_or_dollar with hscript | htouches
        · exact hleast e m hm hscript
        · obtain ⟨d', marker', hr, hd', hle⟩ := hdollar e m hm hwhole htouches
          obtain ⟨hpos, -⟩ := Prod.mk.inj (Option.some.inj hr)
          rwa [hplace d' hd' hpos.symm] at hle

end Cursor

namespace Fragment

/-- What is reported of a style block is its first marker that is a whole word of a script. It is
the first that is a whole word of the style sheet if neither a hyphen nor a character beyond
ASCII stands beside it, and no dollar sign beside a whole word in front of it, and only then. -/
theorem isFirst_foreignSyntax {f : Fragment}
    (h : f.context = .styleGlobal ∨ f.context = .styleLocal) :
    let markers := ["function", "console.log"]
    f.cursor.IsFirst isNamePart markers f.foreignSyntax ∧
    (f.cursor.IsFirst isStyleNamePart markers f.foreignSyntax ↔
      (∀ d marker, f.cursor.Reaches d → f.foreignSyntax = some (d.position, marker) →
        ∀ ch, f.cursor.Touches d marker ch → ch ≠ '-' ∧ isAscii ch) ∧
      (∀ e, ∀ m ∈ markers, f.cursor.Whole isStyleNamePart e m → f.cursor.Touches e m '$' →
        ∃ d marker, f.foreignSyntax = some (d.position, marker) ∧ f.cursor.Reaches d ∧
          d.Reaches e)) := by
  intro markers
  have hsearch : f.foreignSyntax = foreignFrom markers .style false f.cursor := by
    unfold foreignSyntax
    rcases h with h | h
    · rw [h]
      rfl
    · rw [h]
      rfl
  have hfirst := (Cursor.Searched.start markers f.cursor).isFirst
  rw [← hsearch] at hfirst
  exact ⟨hfirst, Cursor.isFirst_style_iff hfirst⟩

/-- The last part of a hyphenated property is reported, which is no whole word of the style
sheet. -/
theorem isFirst_foreignSyntax_hyphen :
    let frame : Frame := ⟨.styleLocal, 1, [], 1⟩
    let f := frame.fragment false 1 "transition-timing-function: ease;".toList ⟨6, 1, 7⟩ ⟨39, 1, 40⟩
    f.foreignSyntax = some (⟨24, 1, 25⟩, "function") ∧
      ¬ f.cursor.IsFirst isStyleNamePart ["function", "console.log"] f.foreignSyntax := by
  intro frame f
  have hfound : f.foreignSyntax = some (⟨24, 1, 25⟩, "function") := by decide +kernel
  let d : Cursor := ⟨⟨24, 1, 25⟩, "function: ease;".toList⟩
  have hread : f.cursor.Consumes ("transition-timing".toList ++ ['-']) d :=
    ⟨by decide, by decide⟩
  refine ⟨hfound, fun hfirst => ?_⟩
  have halone := ((isFirst_foreignSyntax (f := f) (.inr rfl)).2.1 hfirst).1
  exact (halone d "function" ⟨_, hread⟩ hfound '-' (.inl ⟨_, hread⟩)).1 rfl

end Fragment

end Polyglot
