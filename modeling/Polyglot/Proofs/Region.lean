-- SUMMARY: Guarded regions depend on their own text: what follows a region does not change it.
import Polyglot.Guard

/-!
# Regions and what follows them

A string or a block comment is read to its own end, whatever stands behind it,
and a line comment to the end of its line. So a text that was read as a region
in one place is read as the same region in another. The lemmas of this module
say so for each part of `Cursor.front`, and `Cursor.front_region` puts them
together.
-/

namespace Polyglot

namespace Cursor

/-! ## What was read -/

theorem Consumes.unique {c d : Cursor} {u v : List Char} (h : c.Consumes u d)
    (k : c.Consumes v d) : u = v :=
  List.append_cancel_right (h.1.symm.trans k.1)

/-- Where a move ends and what it left behind say what it has read. -/
theorem Reaches.consumes {c d : Cursor} {u : List Char} (h : c.Reaches d)
    (hu : c.rest = u ++ d.rest) : c.Consumes u d := by
  obtain ⟨v, hv⟩ := h
  have : u = v := List.append_cancel_right (hu.symm.trans hv.1)
  exact this ▸ hv

theorem Consumes.eq_mk {c d : Cursor} {u : List Char} (h : c.Consumes u d) :
    d = ⟨c.position.advanceOver u, d.rest⟩ := by
  obtain ⟨p, r⟩ := d
  obtain ⟨-, hp⟩ := h
  simpa using hp

/-- A move that reads nothing ends where it begins. -/
theorem Consumes.eq_of_nil {c d : Cursor} (h : c.Consumes [] d) : d = c := by
  have hd := h.eq_mk
  rwa [← (show c.rest = d.rest from h.1)] at hd

theorem consumes_advance {c : Cursor} {ch : Char} {rest : List Char} (h : c.rest = ch :: rest) :
    c.Consumes [ch] c.advance := by
  simp [advance, h, Consumes]

/-- Two moves that read as many bytes end at the same place. -/
theorem Reaches.eq_of_offset_eq {c d e : Cursor} (h : c.Reaches d) (k : c.Reaches e)
    (hoffset : d.offset = e.offset) : d = e := by
  obtain ⟨u, hu⟩ := h
  obtain ⟨v, hv⟩ := k
  have hbytes : byteLength u = byteLength v := by
    rw [offset, offset, hu.2, hv.2, Position.advanceOver_offset,
      Position.advanceOver_offset] at hoffset
    omega
  have hsame : splitBytes (byteLength u) (u ++ d.rest) =
      splitBytes (byteLength v) (v ++ e.rest) := by
    rw [hbytes, ← hu.1, hv.1]
  rw [splitBytes_byteLength, splitBytes_byteLength] at hsame
  obtain ⟨rfl, hrest⟩ := Prod.mk.inj hsame
  rw [hu.eq_mk, hv.eq_mk, hrest]

/-! ## Strings -/

theorem stringEnd_quote {quote : UInt8} {ch : Char} (h : firstByte ch = quote) (p : Position)
    (rest : List Char) : stringEnd quote p (ch :: rest) = some ⟨p.advance ch, rest⟩ := by
  rw [stringEnd.eq_def]
  exact if_pos h

theorem stringEnd_other {quote : UInt8} {ch : Char} (h : firstByte ch ≠ quote) (hb : ch ≠ '\\')
    (p : Position) (rest : List Char) :
    stringEnd quote p (ch :: rest) = stringEnd quote (p.advance ch) rest := by
  rw [stringEnd.eq_def]
  simp only [if_neg h, if_neg hb]

theorem stringEnd_escape {quote : UInt8} (h : firstByte '\\' ≠ quote) (p : Position)
    (escaped : Char) (rest : List Char) :
    stringEnd quote p ('\\' :: escaped :: rest) =
      stringEnd quote ((p.advance '\\').advance escaped) rest := by
  rw [stringEnd.eq_def]
  simp only [if_neg h, if_true]

/-- The end of a string is found by the characters of the string alone. -/
theorem stringEnd_eq_some {quote : UInt8} {pos : Position} {text : List Char} {d : Cursor}
    (h : stringEnd quote pos text = some d) :
    ∃ u q, text = u ++ q :: d.rest ∧ firstByte q = quote ∧
      ∀ p r, stringEnd quote p (u ++ q :: r) = some ⟨p.advanceOver (u ++ [q]), r⟩ := by
  fun_induction stringEnd quote pos text with
  | case1 => cases h
  | case2 pos ch rest hq =>
    cases h
    exact ⟨[], ch, rfl, hq, stringEnd_quote hq⟩
  | case3 => cases h
  | case4 pos escaped rest hq ih =>
    obtain ⟨u, q, hu, hfirst, hlocal⟩ := ih h
    refine ⟨'\\' :: escaped :: u, q, by simp [hu], hfirst, fun p r => ?_⟩
    simp only [List.cons_append, stringEnd_escape hq, hlocal, Position.advanceOver_cons]
  | case5 pos ch rest hq hb ih =>
    obtain ⟨u, q, hu, hfirst, hlocal⟩ := ih h
    refine ⟨ch :: u, q, by simp [hu], hfirst, fun p r => ?_⟩
    simp only [List.cons_append, stringEnd_other hq hb, hlocal, Position.advanceOver_cons]

theorem skipString_eq_ok_iff {p : Position} {ch : Char} {rest : List Char}
    {after : (⟨p, ch :: rest⟩ : Cursor).Later} :
    skipString ⟨p, ch :: rest⟩ = .ok after ↔
      stringEnd (firstByte ch) (p.advance ch) rest = some after.cursor := by
  unfold skipString
  split
  · next hnil => cases hnil
  · next quote rest' heq =>
    cases heq
    split
    · next hend =>
      have hend' : stringEnd (firstByte ch) (p.advance ch) rest = none := hend
      simp [hend']
    · next d hend =>
      have hend' : stringEnd (firstByte ch) (p.advance ch) rest = some d := hend
      simp only [hend', Except.ok.injEq, Option.some.injEq]
      constructor
      · intro h
        rw [← h]
        rfl
      · intro h
        obtain ⟨cursor, reached⟩ := after
        cases h
        rfl

theorem skipString_eq_error {p : Position} {ch : Char} {rest : List Char}
    (h : stringEnd (firstByte ch) (p.advance ch) rest = none) :
    ∃ issue, skipString ⟨p, ch :: rest⟩ = .error issue := by
  cases hs : skipString ⟨p, ch :: rest⟩ with
  | error issue => exact ⟨issue, rfl⟩
  | ok after =>
    rw [skipString_eq_ok_iff, h] at hs
    cases hs

theorem byteAt_zero (ch : Char) (rest : List Char) : byteAt 0 (ch :: rest) = firstByte ch := by
  simp [byteAt, firstByte, List.headD_eq_head?_getD, List.head?_eq_getElem?]

/-- What is noted of a string that never ends. -/
theorem skipString_error {c : Cursor} {ch : Char} {rest : List Char} (hc : c.rest = ch :: rest)
    {issue : GuardIssue} (h : c.skipString = .error issue) :
    issue = ⟨.string (firstByte ch), c.position⟩ := by
  obtain ⟨pos, text⟩ := c
  obtain rfl : text = ch :: rest := hc
  unfold skipString at h
  simp only at h
  split at h
  · cases h
    rw [byteAt_zero]
  · cases h

/-! ## Searching -/

theorem isPrefixOf_append_iff {needle x : List Char} (r : List Char)
    (h : needle.length ≤ x.length) : needle.isPrefixOf (x ++ r) = needle.isPrefixOf x := by
  rw [Bool.eq_iff_iff, List.isPrefixOf_iff_prefix, List.isPrefixOf_iff_prefix]
  constructor
  · intro hp
    exact List.prefix_of_prefix_length_le hp (List.prefix_append x r) h
  · intro hp
    exact hp.trans (List.prefix_append x r)

/-- The first occurrence is found by the text up to its end alone. -/
theorem findFrom_eq_some {needle : List Char} {pos : Position} {text : List Char} {d : Cursor}
    (h : findFrom needle pos text = some d) :
    ∃ u r, text = u ++ (needle ++ r) ∧ d.rest = needle ++ r ∧
      ∀ p r', findFrom needle p (u ++ (needle ++ r')) =
        some ⟨p.advanceOver u, needle ++ r'⟩ := by
  have here : ∀ p r, findFrom needle p (needle ++ r) = some ⟨p, needle ++ r⟩ := by
    intro p r
    cases hn : needle ++ r with
    | nil =>
      obtain ⟨rfl, rfl⟩ := List.append_eq_nil_iff.1 hn
      rfl
    | cons ch rest =>
      have : needle.isPrefixOf (ch :: rest) := by simp [← hn]
      simp [findFrom, this]
  induction text generalizing pos with
  | nil =>
    simp only [findFrom] at h
    split at h
    · next hempty =>
      cases h
      rw [List.isEmpty_iff] at hempty
      subst hempty
      exact ⟨[], [], rfl, rfl, fun p r' => here p r'⟩
    · cases h
  | cons ch rest ih =>
    simp only [findFrom] at h
    split at h
    · next hp =>
      cases h
      obtain ⟨r, hr⟩ := List.isPrefixOf_iff_prefix.1 hp
      exact ⟨[], r, hr.symm, hr.symm, fun p r' => here p r'⟩
    · next hp =>
      obtain ⟨u, r, hu, hd, hlocal⟩ := ih h
      refine ⟨ch :: u, r, by simp [hu], hd, fun p r' => ?_⟩
      -- the needle is not at `ch` here, as it was not there in the first text
      have hp' : ¬ needle.isPrefixOf (ch :: (u ++ (needle ++ r'))) := by
        have hlen : needle.length ≤ (ch :: (u ++ needle)).length := by
          simp only [List.length_cons, List.length_append]
          omega
        have hsplit : ∀ s, ch :: (u ++ (needle ++ s)) = ch :: (u ++ needle) ++ s := by simp
        rw [hu, hsplit, isPrefixOf_append_iff r hlen] at hp
        rwa [hsplit, isPrefixOf_append_iff r' hlen]
      simp only [List.cons_append, findFrom, if_neg hp', hlocal, Position.advanceOver_cons]

end Cursor

/-! ## The kind of a region -/

namespace GuardSet

theorem kindAt_string_iff {set : GuardSet} {ch : Char} {rest : List Char} :
    set.kindAt (ch :: rest) = some .string ↔ ch ∈ set.quotes := by
  by_cases h : ch ∈ set.quotes
  · simp [kindAt, h]
  · simp only [kindAt, List.contains_iff_mem, h, if_false, iff_false]
    split
    all_goals simp

theorem kindAt_lineComment_iff {set : GuardSet} {ch : Char} {rest : List Char} :
    set.kindAt (ch :: rest) = some .lineComment ↔
      ch ∉ set.quotes ∧ set.lineComments ∧ ch = '/' ∧ ∃ t, rest = '/' :: t := by
  by_cases h : ch ∈ set.quotes
  · simp [kindAt, h]
  · simp only [kindAt, List.contains_iff_mem, h, if_false]
    split
    · simp_all
    · simp
    · simp
    · simp_all

theorem kindAt_blockComment_iff {set : GuardSet} {ch : Char} {rest : List Char} :
    set.kindAt (ch :: rest) = some .blockComment ↔
      ch ∉ set.quotes ∧ set.blockComments ∧ ch = '/' ∧ ∃ t, rest = '*' :: t := by
  by_cases h : ch ∈ set.quotes
  · simp [kindAt, h]
  · simp only [kindAt, List.contains_iff_mem, h, if_false]
    split
    · simp
    · simp_all
    · simp
    · simp_all

theorem kindAt_generatorComment_iff {set : GuardSet} {ch : Char} {rest : List Char} :
    set.kindAt (ch :: rest) = some .generatorComment ↔
      ch ∉ set.quotes ∧ set.generatorComments ∧ ch = '-' ∧
        ∃ t, rest = '-' :: t ∧ t.head?.all isBlank := by
  by_cases h : ch ∈ set.quotes
  · simp [kindAt, h]
  · simp only [kindAt, List.contains_iff_mem, h, if_false]
    split
    · simp
    · simp
    · simp_all
    · simp_all

end GuardSet

/-! ## What may follow -/

/-- `r'` may stand behind a text in place of `r`: it is empty or begins with the same character. -/
def StandsIn (r' r : List Char) : Prop := r' = [] ∨ r'.head? = r.head?

theorem StandsIn.append {r' r : List Char} (h : StandsIn r' r) (x : List Char) :
    StandsIn (x ++ r') (x ++ r) := by
  cases x with
  | nil => exact h
  | cons ch x => exact .inr rfl

/-- A character of code stays one when less of the text behind it is there. Only
a generator comment can begin where a text is cut off. -/
theorem GuardSet.kindAt_eq_none_of_standsIn {set : GuardSet} {ch : Char} {r r' : List Char}
    (hgen : set.generatorComments = false) (h : set.kindAt (ch :: r) = none)
    (hs : StandsIn r' r) : set.kindAt (ch :: r') = none := by
  have hhead : ∀ x t, r' = x :: t → ∃ t', r = x :: t' := by
    rintro x t rfl
    rcases hs with hs | hs
    · cases hs
    · cases r with
      | nil => simp at hs
      | cons y t' => exact ⟨t', by simpa using hs.symm⟩
  cases hk : set.kindAt (ch :: r') with
  | none => rfl
  | some kind =>
    exfalso
    cases kind with
    | string =>
      have : set.kindAt (ch :: r) = some .string :=
        GuardSet.kindAt_string_iff.2 (GuardSet.kindAt_string_iff.1 hk)
      simp [this] at h
    | lineComment =>
      obtain ⟨hcode, hon, hch, t, ht⟩ := GuardSet.kindAt_lineComment_iff.1 hk
      have := GuardSet.kindAt_lineComment_iff.2 ⟨hcode, hon, hch, hhead _ _ ht⟩
      simp [this] at h
    | blockComment =>
      obtain ⟨hcode, hon, hch, t, ht⟩ := GuardSet.kindAt_blockComment_iff.1 hk
      have := GuardSet.kindAt_blockComment_iff.2 ⟨hcode, hon, hch, hhead _ _ ht⟩
      simp [this] at h
    | generatorComment =>
      have := (GuardSet.kindAt_generatorComment_iff.1 hk).2.1
      simp [hgen] at this

/-! ## Complete regions -/

/-- `u` is a whole region of a kind, from its first character to its last. -/
inductive IsRegion (set : GuardSet) : GuardKind → List Char → Prop where
  | string {q : Char} {w : List Char} {p p' : Position} (quote : q ∈ set.quotes)
      (closed : Cursor.stringEnd (firstByte q) p w = some ⟨p', []⟩) :
      IsRegion set .string (q :: w)
  | lineComment {w : List Char} (code : '/' ∉ set.quotes) (on : set.lineComments)
      (line : '\n' ∉ w) : IsRegion set .lineComment ('/' :: '/' :: w)
  | blockComment {w : List Char} {p p' : Position} (code : '/' ∉ set.quotes)
      (on : set.blockComments) (closed : Cursor.findFrom ['*', '/'] p w = some ⟨p', ['*', '/']⟩) :
      IsRegion set .blockComment ('/' :: '*' :: w)
  | generatorComment {w : List Char} (code : '-' ∉ set.quotes) (on : set.generatorComments)
      (blank : w.head?.all isBlank) (line : '\n' ∉ w) :
      IsRegion set .generatorComment ('-' :: '-' :: w)

/-- The region ends with its line. -/
def GuardKind.isLine : GuardKind → Bool
  | .lineComment | .generatorComment => true
  | .string | .blockComment => false

/-- The text ends or its next line begins. -/
def AtLineEnd (text : List Char) : Prop := text.head?.all (· = '\n')

theorem AtLineEnd.standsIn {r' r : List Char} (h : AtLineEnd r) (hs : StandsIn r' r) :
    AtLineEnd r' := by
  rcases hs with rfl | hs
  · rfl
  · exact (congrArg (Option.all (· = '\n')) hs).trans h

namespace Cursor

theorem blockCommentEnd_eq_some_iff {c : Cursor} {slash after : c.Later} :
    blockCommentEnd slash = some after ↔
      ∃ d, slash.advance.cursor.find ['*', '/'] = some d ∧ after.cursor = d.advance.advance := by
  unfold blockCommentEnd
  split
  · next h => simp [h]
  · next d h =>
    simp only [h, Option.some.injEq, exists_eq_left']
    constructor
    · rintro rfl
      rfl
    · intro ha
      obtain ⟨cursor, reached⟩ := after
      cases ha
      rfl

theorem blockCommentEnd_eq_none_iff {c : Cursor} {slash : c.Later} :
    blockCommentEnd slash = none ↔ slash.advance.cursor.find ['*', '/'] = none := by
  unfold blockCommentEnd
  split
  · next h => simp [h]
  · next d h => simp [h]

theorem exists_blockCommentEnd {c d : Cursor} {slash : c.Later}
    (h : slash.advance.cursor.find ['*', '/'] = some d) :
    ∃ after, blockCommentEnd slash = some after ∧ after.cursor = d.advance.advance :=
  ⟨(slash.advance.move d (reaches_find h)).advance.advance,
    blockCommentEnd_eq_some_iff.2 ⟨d, h, rfl⟩, rfl⟩

theorem takeWhile_atLineEnd {w r : List Char} (hw : '\n' ∉ w) (hr : AtLineEnd r) :
    (w ++ r).takeWhile (· != '\n') = w ∧ (w ++ r).dropWhile (· != '\n') = r := by
  have hall : ∀ ch ∈ w, (ch != '\n') = true := by
    intro ch hch
    simpa using fun h : ch = '\n' => hw (h ▸ hch)
  have hr' : r.takeWhile (· != '\n') = [] ∧ r.dropWhile (· != '\n') = r := by
    cases r with
    | nil => exact ⟨rfl, rfl⟩
    | cons ch t =>
      have : ch = '\n' := by simpa [AtLineEnd] using hr
      simp [this]
  rw [List.takeWhile_append_of_pos hall, List.dropWhile_append_of_pos hall, hr'.1, hr'.2]
  exact ⟨List.append_nil w, rfl⟩

theorem dropWhile_atLineEnd (text : List Char) : AtLineEnd (text.dropWhile (· != '\n')) := by
  induction text with
  | nil => rfl
  | cons ch t ih =>
    by_cases h : ch = '\n'
    · simp [h, AtLineEnd]
    · simpa [h] using ih

theorem not_mem_takeWhile_line (text : List Char) : '\n' ∉ text.takeWhile (· != '\n') := by
  intro h
  have := List.all_eq_true.1 List.all_takeWhile _ h
  simp at this

/-- A region lies ahead exactly if its whole text does. -/
theorem front_eq_region {set : GuardSet} {c : Cursor} {kind : GuardKind} {after : c.Later}
    (h : c.front set = .region kind after) :
    ∃ u, IsRegion set kind u ∧ c.Consumes u after.cursor ∧
      (kind.isLine → AtLineEnd after.cursor.rest) := by
  obtain ⟨p, text⟩ := c
  cases text with
  | nil => cases h
  | cons ch rest =>
    simp only [front] at h
    split at h
    · cases h
    · next hkind =>
      split at h
      · next l hok =>
        cases h
        rw [skipString_eq_ok_iff] at hok
        obtain ⟨u, q, hu, hq, hlocal⟩ := stringEnd_eq_some hok
        refine ⟨ch :: (u ++ [q]), .string (GuardSet.kindAt_string_iff.1 hkind) (hlocal .start []),
          ?_, by simp [GuardKind.isLine]⟩
        exact after.reaches.consumes (by simp [hu])
      · cases h
    · next hkind =>
      split at h
      · next l hsome =>
        cases h
        obtain ⟨hcode, hon, rfl, t, rfl⟩ := GuardSet.kindAt_blockComment_iff.1 hkind
        obtain ⟨d, hfind, hafter⟩ := blockCommentEnd_eq_some_iff.1 hsome
        obtain ⟨u, r, hu, hd, hlocal⟩ := findFrom_eq_some hfind
        have hlocal' := hlocal .start []
        have ht : t = u ++ (['*', '/'] ++ r) := hu
        refine ⟨'/' :: '*' :: (u ++ ['*', '/']), .blockComment hcode hon hlocal', ?_,
          by simp [GuardKind.isLine]⟩
        apply after.reaches.consumes
        rw [hafter]
        simp [advance, hd, ht]
      · cases h
    · next kind' hstring hblock hkind =>
      obtain ⟨rfl, hafter⟩ : kind' = kind ∧
          (next ⟨p, ch :: rest⟩ ch rest rfl).eatWhile (· != '\n') = after := by simpa using h
      have hread : (⟨p, ch :: rest⟩ : Cursor).Consumes (ch :: rest.takeWhile (· != '\n'))
          after.cursor := by
        have hrest := consumes_eatWhile (· != '\n') ⟨p.advance ch, rest⟩
        rw [← hafter]
        exact Consumes.trans (u := [ch]) ⟨rfl, rfl⟩ hrest
      have hend : AtLineEnd after.cursor.rest := by
        have hdrop : after.cursor.rest = rest.dropWhile (· != '\n') := by
          rw [← hafter]
          simp [Later.eatWhile, Later.move, eatWhile, eatWhileFrom_eq, next]
        exact hdrop ▸ dropWhile_atLineEnd rest
      refine ⟨_, ?_, hread, fun _ => hend⟩
      cases kind' with
      | string => exact absurd rfl hstring
      | blockComment => exact absurd rfl hblock
      | lineComment =>
        obtain ⟨hcode, hon, rfl, t, rfl⟩ := GuardSet.kindAt_lineComment_iff.1 hkind
        exact .lineComment hcode hon (not_mem_takeWhile_line t)
      | generatorComment =>
        obtain ⟨hcode, hon, rfl, t, rfl, hblank⟩ := GuardSet.kindAt_generatorComment_iff.1 hkind
        refine .generatorComment hcode hon ?_ (not_mem_takeWhile_line t)
        cases t with
        | nil => rfl
        | cons x t => by_cases hx : x = '\n' <;> simp_all

/-- A comment to the end of its line. -/
theorem front_line {set : GuardSet} {kind : GuardKind} {ch : Char} {w r : List Char}
    (hkind : set.kindAt (ch :: (w ++ r)) = some kind) (hline : kind.isLine) (hw : '\n' ∉ w)
    (hr : AtLineEnd r) (p : Position) :
    ∃ after, front set ⟨p, ch :: (w ++ r)⟩ = .region kind after ∧
      after.cursor = ⟨p.advanceOver (ch :: w), r⟩ := by
  obtain ⟨htake, hdrop⟩ := takeWhile_atLineEnd hw hr
  refine ⟨(next ⟨p, ch :: (w ++ r)⟩ ch (w ++ r) rfl).eatWhile (· != '\n'), ?_, ?_⟩
  · cases kind with
    | string | blockComment => cases hline
    | lineComment | generatorComment => simp only [front, hkind]
  · simp [Later.eatWhile, Later.move, eatWhile, eatWhileFrom_eq, next, htake, hdrop]

/-- Where the whole text of a region lies ahead, it is read as that region. -/
theorem front_of_isRegion {set : GuardSet} {kind : GuardKind} {u r : List Char}
    (h : IsRegion set kind u) (hr : kind.isLine → AtLineEnd r) (p : Position) :
    ∃ after, front set ⟨p, u ++ r⟩ = .region kind after ∧
      after.cursor = ⟨p.advanceOver u, r⟩ := by
  cases h with
  | @string q w p₁ p₂ quote closed =>
    obtain ⟨v, e, hv, he, hlocal⟩ := stringEnd_eq_some closed
    have hend := hlocal (p.advance q) r
    let after : (⟨p, q :: (v ++ e :: r)⟩ : Cursor).Later :=
      (next ⟨p, q :: (v ++ e :: r)⟩ q (v ++ e :: r) rfl).move
        ⟨(p.advance q).advanceOver (v ++ [e]), r⟩ (stringEnd_reaches hend)
    have hskip : skipString ⟨p, q :: (v ++ e :: r)⟩ = .ok after := skipString_eq_ok_iff.2 hend
    have hkind : set.kindAt (q :: (v ++ e :: r)) = some .string :=
      GuardSet.kindAt_string_iff.2 quote
    have htext : q :: w ++ r = q :: (v ++ e :: r) := by simp [hv]
    rw [htext]
    refine ⟨after, ?_, by simp [after, Later.move, hv]⟩
    simp only [front, hkind, hskip]
  | @lineComment w code on line =>
    have hkind : set.kindAt ('/' :: '/' :: (w ++ r)) = some .lineComment :=
      GuardSet.kindAt_lineComment_iff.2 ⟨code, on, rfl, _, rfl⟩
    have hw : '\n' ∉ '/' :: w := by simpa using line
    exact front_line hkind rfl hw (hr rfl) p
  | @blockComment w p₁ p₂ code on closed =>
    obtain ⟨v, r₁, hv, hr₁, hlocal⟩ := findFrom_eq_some closed
    have hr₁' : r₁ = [] := by simpa using hr₁
    have hw : w = v ++ ['*', '/'] := by simpa [hr₁'] using hv
    have htext : '/' :: '*' :: w ++ r = '/' :: '*' :: (v ++ (['*', '/'] ++ r)) := by simp [hw]
    rw [htext]
    have hkind : set.kindAt ('/' :: '*' :: (v ++ (['*', '/'] ++ r))) = some .blockComment :=
      GuardSet.kindAt_blockComment_iff.2 ⟨code, on, rfl, _, rfl⟩
    let c : Cursor := ⟨p, '/' :: '*' :: (v ++ (['*', '/'] ++ r))⟩
    have hfind : (c.next '/' _ rfl).advance.cursor.find ['*', '/'] =
        some ⟨((p.advance '/').advance '*').advanceOver v, ['*', '/'] ++ r⟩ :=
      hlocal ((p.advance '/').advance '*') r
    obtain ⟨after, hend, hafter⟩ := exists_blockCommentEnd hfind
    refine ⟨after, ?_, by rw [hafter]; simp [advance, hw]⟩
    simp only [front, hkind]
    rw [hend]
  | @generatorComment w code on blank line =>
    have hkind : set.kindAt ('-' :: '-' :: (w ++ r)) = some .generatorComment := by
      refine GuardSet.kindAt_generatorComment_iff.2 ⟨code, on, rfl, _, rfl, ?_⟩
      cases w with
      | nil =>
        cases r with
        | nil => rfl
        | cons ch r =>
          have : ch = '\n' := by simpa [AtLineEnd] using hr rfl
          simp [this, isBlank]
      | cons ch w => simpa using blank
    have hw : '\n' ∉ '-' :: w := by simpa using line
    exact front_line hkind rfl hw (hr rfl) p

/-- A character is code where no region begins. -/
theorem front_eq_code {set : GuardSet} {ch : Char} {r : List Char}
    (h : set.kindAt (ch :: r) = none) (p : Position) :
    ∃ after, front set ⟨p, ch :: r⟩ = .code ch after ∧ after.cursor = ⟨p.advance ch, r⟩ :=
  ⟨next ⟨p, ch :: r⟩ ch r rfl, by simp only [front, h], rfl⟩

theorem kindAt_of_front_code {set : GuardSet} {c : Cursor} {ch : Char} {after : c.Later}
    (h : c.front set = .code ch after) : set.kindAt c.rest = none := by
  obtain ⟨p, text⟩ := c
  cases text with
  | nil => rfl
  | cons x rest =>
    simp only [front] at h
    split at h
    · assumption
    · split at h <;> cases h
    · split at h <;> cases h
    · cases h

/-- A region that never ends begins at the cursor: a string with its quote, or a block
comment. -/
theorem front_openRegion {set : GuardSet} {c : Cursor} {issue : GuardIssue} {next : c.Later}
    (h : c.front set = .openRegion issue next) :
    (∃ quote ∈ set.quotes, ∃ behind, c.rest = [quote] ++ behind ∧
      issue = ⟨.string (firstByte quote), c.position⟩) ∨
    (∃ behind, c.rest = ['/', '*'] ++ behind) ∧ issue = ⟨.blockComment, c.position⟩ := by
  unfold front at h
  split at h
  · cases h
  · next ch rest hc =>
    split at h
    · cases h
    · next hkind =>
      split at h
      · cases h
      · next issue' herror =>
        cases h
        exact .inl ⟨ch, GuardSet.kindAt_string_iff.1 hkind, rest, hc, skipString_error hc herror⟩
    · next hkind =>
      split at h
      · cases h
      · cases h
        obtain ⟨-, -, rfl, behind, rfl⟩ := GuardSet.kindAt_blockComment_iff.1 hkind
        exact .inr ⟨⟨behind, hc⟩, rfl⟩
    · cases h

/-- A region that never ends uses up the text. -/
theorem atEnd_of_front {set : GuardSet} {c : Cursor} {issue : GuardIssue} {next : c.Later}
    (h : c.front set = .openRegion issue next) : next.cursor.rest = [] := by
  unfold front at h
  split at h
  · cases h
  · split at h
    · cases h
    · split at h <;> cases h
      rfl
    · split at h <;> cases h
      rfl
    · cases h

/-! ## Regions cut off -/

theorem stringEnd_cut {quote : UInt8} {v w : List Char} {p p' : Position} (hw : w ≠ [])
    (h : stringEnd quote p (v ++ w) = some ⟨p', []⟩) (q : Position) :
    stringEnd quote q v = none := by
  cases hd : stringEnd quote q v with
  | none => rfl
  | some d =>
    obtain ⟨u, e, hu, -, hlocal⟩ := stringEnd_eq_some hd
    have hlong : stringEnd quote p (v ++ w) = some ⟨p.advanceOver (u ++ [e]), d.rest ++ w⟩ := by
      rw [hu, List.append_assoc, List.cons_append, hlocal]
    simp [hlong, hw] at h

theorem findFrom_cut {needle v w : List Char} {p p' : Position} (hw : w ≠ [])
    (h : findFrom needle p (v ++ w) = some ⟨p', needle⟩) (q : Position) :
    findFrom needle q v = none := by
  cases hd : findFrom needle q v with
  | none => rfl
  | some d =>
    obtain ⟨u, r, hu, -, hlocal⟩ := findFrom_eq_some hd
    have hlong : findFrom needle p (v ++ w) = some ⟨p.advanceOver u, needle ++ (r ++ w)⟩ := by
      rw [hu, List.append_assoc, List.append_assoc, hlocal]
    simp [hlong, hw] at h

/-- What lies ahead at the beginning of a region of which the end was cut off: a
region that is never closed, a comment that ends with its line, or, if only
its first character is left, the character of a comment as code. -/
theorem front_cut_region {set : GuardSet} {kind : GuardKind} {u v : List Char}
    (h : IsRegion set kind (u ++ v)) (hu : u ≠ []) (hv : v ≠ []) (p : Position) :
    (∃ issue after, front set ⟨p, u⟩ = .openRegion issue after) ∨
    (kind.isLine ∧ IsRegion set kind u) ∨
    (∃ ch after, u = [ch] ∧ (ch = '/' ∨ ch = '-') ∧ front set ⟨p, u⟩ = .code ch after) := by
  generalize hw : u ++ v = w at h
  obtain ⟨ch, u, rfl⟩ := List.exists_cons_of_ne_nil hu
  -- a comment of which one character is left
  have single : ∀ x, u = [] → ch = x → (x = '/' ∨ x = '-') → x ∉ set.quotes →
      ∃ ch' after, ch :: u = [ch'] ∧ (ch' = '/' ∨ ch' = '-') ∧
        front set ⟨p, ch :: u⟩ = .code ch' after := by
    rintro x rfl rfl hx hq
    have hkind : set.kindAt [ch] = none := by
      rcases hx with rfl | rfl <;> simp [GuardSet.kindAt, hq]
    obtain ⟨after, hfront, -⟩ := front_eq_code hkind p
    exact ⟨ch, after, rfl, hx, hfront⟩
  cases h with
  | @string q w p₁ p₂ quote closed =>
    obtain ⟨rfl, rfl⟩ : ch = q ∧ u ++ v = w := by simpa using hw
    obtain ⟨issue, hskip⟩ :=
      skipString_eq_error (stringEnd_cut hv closed (p.advance ch))
    have hkind : set.kindAt (ch :: u) = some .string := GuardSet.kindAt_string_iff.2 quote
    refine .inl ⟨issue, (next ⟨p, ch :: u⟩ ch u rfl).toEnd, ?_⟩
    simp only [front, hkind, hskip]
  | @lineComment w code on line =>
    obtain ⟨rfl, hw⟩ : ch = '/' ∧ u ++ v = '/' :: w := by simpa using hw
    cases u with
    | nil => exact .inr (.inr (single '/' rfl rfl (.inl rfl) code))
    | cons x u =>
      obtain ⟨rfl, rfl⟩ : x = '/' ∧ u ++ v = w := by simpa using hw
      exact .inr (.inl ⟨rfl, .lineComment code on fun hn => line (List.mem_append_left v hn)⟩)
  | @blockComment w p₁ p₂ code on closed =>
    obtain ⟨rfl, hw⟩ : ch = '/' ∧ u ++ v = '*' :: w := by simpa using hw
    cases u with
    | nil => exact .inr (.inr (single '/' rfl rfl (.inl rfl) code))
    | cons x u =>
      obtain ⟨rfl, rfl⟩ : x = '*' ∧ u ++ v = w := by simpa using hw
      have hkind : set.kindAt ('/' :: '*' :: u) = some .blockComment :=
        GuardSet.kindAt_blockComment_iff.2 ⟨code, on, rfl, _, rfl⟩
      have hend : blockCommentEnd (next ⟨p, '/' :: '*' :: u⟩ '/' _ rfl) = none :=
        blockCommentEnd_eq_none_iff.2 (findFrom_cut hv closed ((p.advance '/').advance '*'))
      refine .inl ⟨⟨.blockComment, p⟩, (next ⟨p, '/' :: '*' :: u⟩ '/' _ rfl).toEnd, ?_⟩
      simp only [front, hkind, hend]
  | @generatorComment w code on blank line =>
    obtain ⟨rfl, hw⟩ : ch = '-' ∧ u ++ v = '-' :: w := by simpa using hw
    cases u with
    | nil => exact .inr (.inr (single '-' rfl rfl (.inr rfl) code))
    | cons x u =>
      obtain ⟨rfl, rfl⟩ : x = '-' ∧ u ++ v = w := by simpa using hw
      refine .inr (.inl ⟨rfl, .generatorComment code on ?_
        fun hn => line (List.mem_append_left v hn)⟩)
      cases u with
      | nil => rfl
      | cons y u => simpa using blank

end Cursor

end Polyglot
