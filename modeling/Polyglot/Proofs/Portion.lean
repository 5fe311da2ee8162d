-- SUMMARY: What is read in front of a stop is read in the same way where the text ends at the stop.
import Polyglot.Proofs.Depth
import Polyglot.Proofs.Grammar

/-!
# Portions of a text

A piece that was cut out of a text is read on its own, without what followed it. A cursor
of the piece sees the text ahead only up to a stop (`Cursor.UpTo`). Whatever a reader of
the whole text takes in without going beyond the stop, a reader of the piece takes in as
well. The only thing that a stop can make is a comment of two hyphens, which nothing needs
to follow (`Cursor.UpTo.code`).
-/

namespace Polyglot

namespace Cursor

/-- `part` stands where `c` does, and sees the text ahead up to `d` and nothing behind it. -/
structure UpTo (d c part : Cursor) : Prop where
  position : part.position = c.position
  read : c.Consumes part.rest d

variable {set : GuardSet} {c d e m part : Cursor} {w : List Char}

theorem upTo_textTo (h : c.Reaches d) : UpTo d c ⟨c.position, c.textTo d⟩ := by
  obtain ⟨text, htext⟩ := h
  rw [htext.textTo_eq]
  exact ⟨rfl, htext⟩

/-- A stop at the end of the text hides nothing. -/
theorem upTo_self (h : c.Reaches d) (hd : d.rest = []) : UpTo d c c := by
  obtain ⟨text, htext⟩ := h
  refine ⟨rfl, ?_, ?_⟩
  · rw [hd, List.append_nil]
  · rw [htext.2, htext.1, hd, List.append_nil]

theorem UpTo.eq_of_atEnd (h : UpTo d c part) (hd : d.rest = []) : part = c := by
  obtain ⟨p, text⟩ := part
  obtain ⟨hposition, hrest, -⟩ := h
  rw [hd, List.append_nil] at hrest
  rw [show p = c.position from hposition, ← show c.rest = text from hrest]

/-- At the stop nothing is left. -/
theorem UpTo.eq_nil (h : UpTo d d part) : part.rest = [] := h.read.unique (.refl d)

theorem UpTo.standsIn (h : UpTo d c part) : StandsIn part.rest c.rest := by
  rw [h.read.1]
  cases part.rest with
  | nil => exact .inl rfl
  | cons ch text => exact .inr rfl

/-- What begins the piece begins the text. -/
theorem UpTo.prefix_rest (h : UpTo d c part) : part.rest <+: c.rest := ⟨d.rest, h.read.1.symm⟩

/-- What is read in front of the stop belongs to the piece. -/
theorem UpTo.exists_append (h : UpTo d c part) (hw : c.Consumes w e) (he : e.Reaches d) :
    ∃ v, part = ⟨c.position, w ++ v⟩ ∧ UpTo d e ⟨e.position, v⟩ := by
  obtain ⟨v, hv⟩ := he
  refine ⟨v, ?_, rfl, hv⟩
  obtain ⟨p, text⟩ := part
  obtain ⟨rfl, hread⟩ := h
  rw [show text = w ++ v from hread.unique (hw.trans hv)]

/-! ## What lies ahead -/

theorem UpTo.region {kind : GuardKind} {after : c.Later} (h : UpTo d c part)
    (ahead : c.front set = .region kind after) (hd : after.cursor.Reaches d) :
    ∃ after' : part.Later, part.front set = .region kind after' ∧
      UpTo d after.cursor after'.cursor := by
  obtain ⟨u, hregion, hu, hline⟩ := front_eq_region ahead
  obtain ⟨v, rfl, hup⟩ := h.exists_append hu hd
  obtain ⟨after', ahead', hafter⟩ := front_of_isRegion hregion
    (fun hkind => (hline hkind).standsIn hup.standsIn) c.position
  refine ⟨after', ahead', ?_⟩
  rw [hafter, ← hu.2]
  exact hup

/-- A character of code is one in the piece, unless the piece ends behind two hyphens. -/
theorem UpTo.code {ch : Char} {after : c.Later} (h : UpTo d c part)
    (ahead : c.front set = .code ch after) (hd : after.cursor.Reaches d)
    (hyphens : set.generatorComments = true → part.rest ≠ ['-', '-']) :
    ∃ after' : part.Later, part.front set = .code ch after' ∧
      UpTo d after.cursor after'.cursor := by
  have hread : c.Consumes [ch] after.cursor := front_code ahead
  obtain ⟨v, rfl, hup⟩ := h.exists_append hread hd
  have hkind : set.kindAt (ch :: after.cursor.rest) = none := by
    rw [← List.singleton_append, ← hread.1]
    exact kindAt_of_front_code ahead
  have hkind' : set.kindAt (ch :: v) = none := by
    refine (kindAt_shorter hkind hup.prefix_rest).resolve_right ?_
    rintro ⟨rfl, rfl, hgenerator⟩
    exact hyphens (GuardSet.kindAt_generatorComment_iff.1 hgenerator).2.1 rfl
  obtain ⟨after', ahead', hafter⟩ := front_eq_code hkind' c.position
  refine ⟨after', ahead', ?_⟩
  rw [hafter, show c.position.advance ch = after.cursor.position from hread.2.symm]
  exact hup

/-! ## Readers -/

/-- A reader that ends in front of a stop has not run to the end of the text. -/
theorem Reaches.rest_ne_nil (h : c.Reaches d) (hopen : d.rest ≠ []) : c.rest ≠ [] := by
  obtain ⟨text, htext⟩ := h
  rw [htext.1]
  exact List.append_ne_nil_of_right_ne_nil text hopen

theorem length_advance (h : c.rest ≠ []) : c.advance.rest.length < c.rest.length := by
  obtain ⟨ch, rest, hrest⟩ := List.exists_cons_of_ne_nil h
  rw [(consumes_advance hrest).1, List.length_append]
  exact Nat.lt_add_of_pos_left Nat.one_pos

/-- A run ends at the first character that is not of its class. -/
theorem span_append {p : Char → Bool} {v : List Char} (hw : ∀ ch ∈ w, p ch)
    (hv : v.head?.any p = false) : (w ++ v).takeWhile p = w ∧ (w ++ v).dropWhile p = v := by
  have hstop : v.takeWhile p = [] ∧ v.dropWhile p = v := by
    cases v with
    | nil => exact ⟨rfl, rfl⟩
    | cons ch v =>
      have hch : ¬ p ch := by simpa using hv
      exact ⟨List.takeWhile_cons_of_neg hch, List.dropWhile_cons_of_neg hch⟩
  rw [List.takeWhile_append_of_pos hw, List.dropWhile_append_of_pos hw, hstop.1, hstop.2]
  exact ⟨List.append_nil w, rfl⟩

theorem UpTo.eatWhile {p : Char → Bool} (h : UpTo d c part) (hd : (c.eatWhile p).Reaches d) :
    UpTo d (c.eatWhile p) (part.eatWhile p) := by
  have hread := c.consumes_eatWhile p
  obtain ⟨v, rfl, hup⟩ := h.exists_append hread hd
  have hstop : v.head?.any p = false := by
    cases v with
    | nil => rfl
    | cons x v =>
      have hdrop : c.rest.dropWhile p = x :: (v ++ d.rest) := by
        rw [← FeatureScan.rest_eatWhile p c.position c.rest]
        exact hup.read.1
      have hhead := List.head?_dropWhile_not p c.rest
      rw [hdrop] at hhead
      simpa using hhead
  obtain ⟨htake, hdrop⟩ := span_append
    (fun ch hch => List.all_eq_true.1 List.all_takeWhile ch hch) hstop
  have hsame : (Cursor.mk c.position (c.rest.takeWhile p ++ v)).eatWhile p =
      ⟨(c.eatWhile p).position, v⟩ := by
    rw [Cursor.eatWhile, eatWhileFrom_eq, htake, hdrop, ← hread.2]
  rw [hsame]
  exact hup

theorem UpTo.advance (h : UpTo d c part) (hc : c.rest ≠ []) (hd : c.advance.Reaches d) :
    UpTo d c.advance part.advance := by
  obtain ⟨ch, rest, hrest⟩ := List.exists_cons_of_ne_nil hc
  have hread := consumes_advance hrest
  obtain ⟨v, rfl, hup⟩ := h.exists_append hread hd
  have hsame : (Cursor.mk c.position ([ch] ++ v)).advance = ⟨c.advance.position, v⟩ := by
    rw [hread.2]
    rfl
  rw [hsame]
  exact hup

/-- The piece begins with what begins the text, as far as it goes. -/
theorem UpTo.startsWith_iff {text : List Char} (h : UpTo d c part)
    (long : text.length + d.rest.length ≤ c.rest.length) :
    part.startsWith text = c.startsWith text := by
  have hlength : c.rest.length = part.rest.length + d.rest.length := by
    rw [h.read.1, List.length_append]
  rw [Cursor.startsWith, Cursor.startsWith, h.read.1, isPrefixOf_append_iff d.rest (by omega)]

theorem UpTo.startsWith (h : UpTo d c part) {text : List Char} (ahead : c.startsWith text = false) :
    part.startsWith text = false := by
  rw [Cursor.startsWith, Bool.eq_false_iff, ne_eq, List.isPrefixOf_iff_prefix] at ahead ⊢
  exact fun hbegins => ahead (hbegins.trans h.prefix_rest)

theorem UpTo.eat {text : List Char} (inline : text.all isInlineAscii) (h : UpTo d c part)
    (ahead : c.eat text = some e) (hd : e.Reaches d) :
    ∃ e', part.eat text = some e' ∧ UpTo d e e' := by
  have hread := consumes_eat inline ahead
  obtain ⟨v, rfl, hup⟩ := h.exists_append hread hd
  obtain ⟨e', heat, hrest⟩ := eat_append (c := ⟨c.position, text ++ v⟩) rfl
  refine ⟨e', heat, ?_⟩
  rw [(consumes_eat inline heat).eq_mk, hrest, show c.position.advanceOver text = e.position
    from hread.2.symm]
  exact hup

theorem eat_eq_none_iff {text : List Char} : c.eat text = none ↔ c.startsWith text = false := by
  unfold Cursor.eat
  split
  · next h => simp [h]
  · next h => simp [h]

theorem rest_find {needle : List Char} (h : c.find needle = some e) :
    ∃ text, e.rest = needle ++ text := by
  obtain ⟨-, text, -, hrest, -⟩ := findFrom_eq_some h
  exact ⟨text, hrest⟩

theorem consumes_advance_advance {x y : Char} {text : List Char} (h : c.rest = x :: y :: text) :
    c.Consumes [x, y] c.advance.advance := by
  simp [Cursor.advance, h, Consumes]

/-- What is found in front of the stop is found in the piece. -/
theorem UpTo.find {needle : List Char} (h : UpTo d c part) (found : c.find needle = some e)
    (hneedle : e.Consumes needle m) (hd : m.Reaches d) :
    ∃ e', part.find needle = some e' ∧ UpTo d e e' := by
  obtain ⟨u, r, htext, hrest, hlocal⟩ := findFrom_eq_some found
  have hread : c.Consumes u e := (reaches_find found).consumes (by rw [htext, hrest])
  obtain ⟨v, rfl, hup⟩ := h.exists_append hread (.trans ⟨_, hneedle⟩ hd)
  obtain ⟨v', hv, -⟩ := hup.exists_append hneedle hd
  obtain rfl : v = needle ++ v' := congrArg Cursor.rest hv
  refine ⟨⟨c.position.advanceOver u, needle ++ v'⟩, hlocal c.position v', ?_⟩
  rw [← hread.2]
  exact hup

/-- A brace that is closed in front of the stop is closed in the piece. -/
theorem UpTo.closeFrom {depth : Nat} (hgenerator : set.generatorComments = false)
    (h : UpTo d c part) (closed : closeFrom set depth c = .ok e) (hd : e.advance.Reaches d) :
    ∃ e', Cursor.closeFrom set depth part = .ok e' ∧ UpTo d e e' := by
  have hyphens : ∀ part : Cursor, set.generatorComments = true → part.rest ≠ ['-', '-'] :=
    fun _ hon => by simp [hgenerator] at hon
  have hstop : ∀ {m : Cursor} {depth : Nat}, Cursor.closeFrom set depth m = .ok e → m.Reaches d :=
    fun hclosed => (closeFrom_reaches hclosed).trans (e.reaches_advance.trans hd)
  fun_induction Cursor.closeFrom set depth c generalizing part with
  | case1 => cases closed
  | case2 => cases closed
  | case3 depth c kind after ahead ih =>
    obtain ⟨after', ahead', hup⟩ := h.region ahead (hstop closed)
    rw [Cursor.closeFrom, ahead']
    exact ih hup closed
  | case4 depth c after ahead ih =>
    obtain ⟨after', ahead', hup⟩ := h.code ahead (hstop closed) (hyphens part)
    rw [Cursor.closeFrom, ahead']
    exact ih hup closed
  | case5 depth c after hlast ahead =>
    cases closed
    have hafter : e.advance = after.cursor := by
      obtain ⟨hrest, hposition⟩ := front_code ahead
      simp only [Cursor.advance, hrest, ← hposition]
    obtain ⟨after', ahead', -⟩ := h.code ahead (hafter ▸ hd) (hyphens part)
    refine ⟨part, ?_, h⟩
    rw [Cursor.closeFrom, ahead']
    simp [hlast]
  | case6 depth c after hinner ahead hother ih =>
    obtain ⟨after', ahead', hup⟩ := h.code ahead (hstop closed) (hyphens part)
    rw [Cursor.closeFrom, ahead']
    simp only [if_neg hother, if_neg hinner, if_true]
    exact ih hup closed
  | case7 depth c ch after ahead hopen hclose ih =>
    obtain ⟨after', ahead', hup⟩ := h.code ahead (hstop closed) (hyphens part)
    rw [Cursor.closeFrom, ahead']
    simp only [if_neg hopen, if_neg hclose]
    exact ih hup closed

end Cursor

end Polyglot
