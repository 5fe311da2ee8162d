-- SUMMARY: The reader of selectors finds one exactly where a word of their grammar begins.
import Mathlib.Computability.Language
import Polyglot.Proofs.Dialect

/-!
# The grammar of selectors

Selectors in double braces are a language, `Selector.selector`. The readers of the dialect go
as far as they can and never come back, and still read exactly the words of that language: what
may stand behind a part, a compound or a chain never goes on with it, so the longest beginning
is the one to take (`Cursor.enhancedSelector?_isSome_iff`).
-/

namespace Polyglot

open Cursor
open scoped Computability

namespace Selector

/-! ## Languages -/

/-- The words of one character of a class. -/
def one (p : Char → Bool) : Language Char := {w | ∃ ch, p ch ∧ w = [ch]}

/-- A letter, `_` or `$`, and then letters, digits, `_`, `$` or `-`. -/
def name : Language Char := one isNameStart * (one isSelectorNamePart)∗

/-- A name, possibly behind a dot or a hash. -/
def part : Language Char := name + one (fun ch => ch = '.' || ch = '#') * name

/-- A number in square brackets. -/
def index : Language Char := {['[']} * (one Char.isDigit * (one Char.isDigit)∗) * {[']']}

/-- One part or more, and possibly a number. -/
def compound : Language Char := part * part∗ * (1 + index)

/-- Spaces and tabs, at least one. -/
def gap : Language Char := one isHorizontalBlank * (one isHorizontalBlank)∗

/-- Compounds with blanks between them. -/
def chain : Language Char := compound * (gap * compound)∗

/-- An ampersand or a chain in double braces, with blanks around it. -/
def selector : Language Char :=
  {['{', '{']} * (one isHorizontalBlank)∗ * ({['&']} + chain) * (one isHorizontalBlank)∗ *
    {['}', '}']}

variable {L M : Language Char} {p : Char → Bool} {u v w r : List Char}

theorem mem_one : w ∈ one p ↔ ∃ ch, p ch ∧ w = [ch] := Iff.rfl

theorem mem_kstar_iff : w ∈ L∗ ↔ w = [] ∨ ∃ u ∈ L, ∃ v ∈ L∗, u ++ v = w := by
  rw [← Language.one_add_self_mul_kstar_eq_kstar, Language.mem_add, Language.mem_one,
    Language.mem_mul, Language.one_add_self_mul_kstar_eq_kstar]

theorem append_mem_kstar (hu : u ∈ L) (hv : v ∈ L∗) : u ++ v ∈ L∗ :=
  mem_kstar_iff.2 (.inr ⟨u, hu, v, hv, rfl⟩)

/-- The words over a class of characters. -/
theorem mem_kstar_one : w ∈ (one p)∗ ↔ ∀ ch ∈ w, p ch := by
  constructor
  · rintro ⟨words, rfl, hwords⟩ ch hch
    obtain ⟨x, hx, hch⟩ := List.mem_flatten.1 hch
    obtain ⟨y, hy, rfl⟩ := hwords x hx
    rwa [List.mem_singleton.1 hch]
  · intro h
    induction w with
    | nil => exact Language.nil_mem_kstar _
    | cons ch w ih =>
      obtain ⟨hch, hw⟩ := List.forall_mem_cons.1 h
      exact append_mem_kstar (mem_one.2 ⟨ch, hch, rfl⟩) (ih hw)

/-- One character of a class and then any of another. -/
theorem mem_one_mul {q : Char → Bool} :
    w ∈ one p * (one q)∗ ↔ ∃ ch t, w = ch :: t ∧ p ch ∧ ∀ x ∈ t, q x := by
  constructor
  · rintro ⟨_, ⟨ch, hch, rfl⟩, t, ht, rfl⟩
    exact ⟨ch, t, rfl, hch, mem_kstar_one.1 ht⟩
  · rintro ⟨ch, t, rfl, hch, ht⟩
    exact ⟨[ch], ⟨ch, hch, rfl⟩, t, mem_kstar_one.2 ht, rfl⟩

theorem name_append (hu : u ∈ name) (hv : ∀ ch ∈ v, isSelectorNamePart ch) : u ++ v ∈ name := by
  obtain ⟨ch, t, rfl, hch, ht⟩ := mem_one_mul.1 hu
  refine mem_one_mul.2 ⟨ch, t ++ v, rfl, hch, fun x hx => ?_⟩
  exact (List.mem_append.1 hx).elim (ht x) (hv x)

theorem part_append (hu : u ∈ part) (hv : ∀ ch ∈ v, isSelectorNamePart ch) : u ++ v ∈ part := by
  rcases hu with hu | ⟨dot, hdot, x, hx, rfl⟩
  · exact .inl (name_append hu hv)
  · exact .inr ⟨dot, hdot, x ++ v, name_append hx hv, (List.append_assoc _ _ _).symm⟩

/-- A part is a name, or begins with a dot or hash, which goes on with no name. -/
theorem part_cases (hu : u ∈ part) :
    (∃ ch t, u = ch :: t ∧ isNameStart ch ∧ ∀ x ∈ t, isSelectorNamePart x) ∨
      ∃ ch t, u = ch :: t ∧ (ch = '.' ∨ ch = '#') ∧ t ∈ name := by
  rcases hu with hu | ⟨_, ⟨ch, hch, rfl⟩, x, hx, rfl⟩
  · exact .inl (mem_one_mul.1 hu)
  · exact .inr ⟨ch, x, rfl, by simpa using hch, hx⟩

/-- The first of many parts can be taken as long as possible. -/
theorem exists_longest (hw : w ∈ part∗) (hne : w ≠ [])
    (hr : r.head?.any isSelectorNamePart = false) :
    ∃ u ∈ part, ∃ v ∈ part∗, w = u ++ v ∧ (v ++ r).head?.any isSelectorNamePart = false := by
  obtain ⟨parts, rfl, hparts⟩ := hw
  induction parts with
  | nil => exact absurd rfl hne
  | cons u parts ih =>
    obtain ⟨hu, hparts⟩ := List.forall_mem_cons.1 hparts
    rw [List.flatten_cons]
    by_cases hnil : parts.flatten = []
    · exact ⟨u, hu, [], Language.nil_mem_kstar _, by rw [hnil], hr⟩
    · obtain ⟨x, hx, v, hv, hsplit, hend⟩ := ih hparts hnil
      rw [hsplit]
      rcases part_cases hx with ⟨ch, t, rfl, hch, ht⟩ | ⟨ch, t, rfl, hch, -⟩
      · -- a bare name goes on with the part before it
        refine ⟨u ++ ch :: t, part_append hu ?_, v, hv, by simp, hend⟩
        exact List.forall_mem_cons.2 ⟨isSelectorNamePart_of_isNameStart hch, ht⟩
      · refine ⟨u, hu, _, append_mem_kstar hx hv, rfl, ?_⟩
        rcases hch with rfl | rfl
        · rfl
        · rfl

/-! ## The characters of a selector -/

/-- Every character of every word is of a class. -/
def Over (q : Char → Bool) (L : Language Char) : Prop := ∀ w ∈ L, ∀ ch ∈ w, q ch

section Over

variable {q : Char → Bool}

theorem over_one (h : ∀ ch, p ch → q ch) : Over q (one p) := by
  rintro _ ⟨ch, hch, rfl⟩ x hx
  rw [List.mem_singleton.1 hx]
  exact h ch hch

theorem over_text (text : List Char) (h : text.all q) : Over q {text} := by
  rintro _ rfl ch hch
  exact List.all_eq_true.1 h ch hch

theorem Over.add (hL : Over q L) (hM : Over q M) : Over q (L + M) :=
  fun w hw => hw.elim (hL w) (hM w)

theorem Over.mul (hL : Over q L) (hM : Over q M) : Over q (L * M) := by
  rintro _ ⟨u, hu, v, hv, rfl⟩ ch hch
  exact (List.mem_append.1 hch).elim (hL u hu ch) (hM v hv ch)

theorem Over.kstar (hL : Over q L) : Over q L∗ := by
  rintro _ ⟨words, rfl, hwords⟩ ch hch
  obtain ⟨w, hw, hch⟩ := List.mem_flatten.1 hch
  exact hL w (hwords w hw) ch hch

theorem over_selector : Over (fun ch => isSelectorText ch || ch = '{' || ch = '}') selector := by
  have hclass : ∀ {p : Char → Bool}, (∀ ch, p ch → isSelectorText ch) →
      Over (fun ch => isSelectorText ch || ch = '{' || ch = '}') (one p) :=
    fun h => over_one fun ch hch => by simp [h ch hch]
  have hblank := hclass isSelectorText_of_isHorizontalBlank
  have hdigit := hclass isSelectorText_of_isDigit
  have hmore := hclass isSelectorText_of_isSelectorNamePart
  have hname := (hclass fun ch hch => isSelectorText_of_isSelectorNamePart ch
    (isSelectorNamePart_of_isNameStart hch)).mul hmore.kstar
  have hdot : Over _ (one fun ch => ch = '.' || ch = '#') := hclass fun ch hch => by
    rcases (by simpa using hch : ch = '.' ∨ ch = '#') with rfl | rfl
    · decide
    · decide
  have hpart := hname.add (hdot.mul hname)
  have hnone : Over (fun ch => isSelectorText ch || ch = '{' || ch = '}') 1 :=
    over_text [] rfl
  have hindex := ((over_text ['['] (by decide)).mul (hdigit.mul hdigit.kstar)).mul
    (over_text [']'] (by decide))
  have hcompound := (hpart.mul hpart.kstar).mul (hnone.add hindex)
  have hchain := hcompound.mul ((hblank.mul hblank.kstar).mul hcompound).kstar
  have hbody := (over_text ['&'] (by decide)).add hchain
  have hopen := over_text (q := fun ch => isSelectorText ch || ch = '{' || ch = '}')
    ['{', '{'] (by decide)
  exact (((hopen.mul hblank.kstar).mul hbody).mul hblank.kstar).mul
    (over_text ['}', '}'] (by decide))

end Over

end Selector

/-! ## What the readers take -/

namespace Cursor

open Selector

variable {L M : Language Char} {p : Char → Bool} {c d e : Cursor} {l m : c.Later}
  {u w r : List Char}

/-- From one cursor to the other a word of the language is read. -/
def Reads (L : Language Char) (c d : Cursor) : Prop := ∃ w ∈ L, c.Consumes w d

theorem Reads.mul (h : Reads L c d) (k : Reads M d e) : Reads (L * M) c e := by
  obtain ⟨u, hu, hcd⟩ := h
  obtain ⟨v, hv, hde⟩ := k
  exact ⟨u ++ v, Language.append_mem_mul hu hv, hcd.trans hde⟩

theorem Reads.mono (h : Reads L c d) (hle : ∀ w ∈ L, w ∈ M) : Reads M c d := by
  obtain ⟨w, hw, hread⟩ := h
  exact ⟨w, hle w hw, hread⟩

theorem Reads.nil_kstar (c : Cursor) : Reads L∗ c c := ⟨[], Language.nil_mem_kstar L, .refl c⟩

/-- One word more at the beginning. -/
theorem Reads.cons_kstar (h : Reads L c d) (k : Reads (L∗ * M) d e) : Reads (L∗ * M) c e := by
  obtain ⟨_, ⟨v, hv, w, hw, rfl⟩, hde⟩ := k
  obtain ⟨u, hu, hcd⟩ := h
  rw [Reads, Language.mul_def]
  exact ⟨u ++ (v ++ w), ⟨u ++ v, append_mem_kstar hu hv, w, hw, by simp⟩, hcd.trans hde⟩

theorem reads_eatWhile (p : Char → Bool) (c : Cursor) : Reads (one p)∗ c (c.eatWhile p) :=
  ⟨_, mem_kstar_one.2 fun _ hch => List.all_eq_true.1 List.all_takeWhile _ hch,
    c.consumes_eatWhile p⟩

theorem reads_eatWhile_of_head (h : c.rest.head?.any p) :
    Reads (one p * (one p)∗) c (c.eatWhile p) := by
  refine ⟨_, mem_one_mul.2 ?_, c.consumes_eatWhile p⟩
  cases hrest : c.rest with
  | nil => simp [hrest] at h
  | cons ch t =>
    have hch : p ch := by simpa [hrest] using h
    exact ⟨ch, t.takeWhile p, List.takeWhile_cons_of_pos hch, hch,
      fun _ hx => List.all_eq_true.1 List.all_takeWhile _ hx⟩

theorem reads_eat? {text : List Char} {inline : text.all isInlineAscii}
    (h : l.eat? text inline = some m) : Reads {text} l.cursor m.cursor := by
  unfold Later.eat? at h
  split at h
  · next d hd =>
    cases h
    exact ⟨text, rfl, consumes_eat inline hd⟩
  · cases h

theorem reads_selectorName? (h : c.selectorName? = some l) : Reads name c l.cursor := by
  unfold selectorName? at h
  split at h
  · cases h
  · next ch rest hrest =>
    split at h
    · next hch =>
      cases h
      have hfirst : Reads (one isNameStart) c (c.next ch rest hrest).cursor :=
        ⟨[ch], ⟨ch, hch, rfl⟩, hrest, rfl⟩
      exact hfirst.mul (reads_eatWhile _ _)
    · cases h

theorem reads_compoundPart? (h : c.compoundPart? = some l) : Reads part c l.cursor := by
  obtain ⟨pos, text⟩ := c
  cases text with
  | nil => cases h
  | cons ch text =>
    rw [compoundPart?_cons] at h
    split at h
    · next hdot =>
      obtain ⟨x, hx, rfl⟩ := Option.map_eq_some_iff.1 h
      have hfirst : Reads (one fun ch => ch = '.' || ch = '#') ⟨pos, ch :: text⟩
          (advance ⟨pos, ch :: text⟩) := ⟨[ch], ⟨ch, by simpa using hdot, rfl⟩, rfl, rfl⟩
      exact (hfirst.mul (reads_selectorName? hx)).mono fun _ hw => .inr hw
    · exact (reads_selectorName? h).mono fun _ hw => .inl hw

theorem reads_selectorIndex? (h : selectorIndex? l = some m) :
    Reads (1 + index) l.cursor m.cursor := by
  rw [selectorIndex?_eq] at h
  split at h
  · cases h
    exact ⟨[], .inl rfl, .refl _⟩
  · next digits hopen =>
    split at h
    · next hany =>
      have hdigits : Reads (one Char.isDigit * (one Char.isDigit)∗) digits.cursor
          (digits.eatWhile Char.isDigit).cursor := reads_eatWhile_of_head hany
      exact (((reads_eat? hopen).mul hdigits).mul (reads_eat? h)).mono fun _ hw => .inr hw
    · cases h

theorem reads_compoundFrom (h : compoundFrom l = some m) :
    Reads (part∗ * (1 + index)) l.cursor m.cursor := by
  fun_induction compoundFrom l with
  | case1 => cases h
  | case2 l _ next hnext ih => exact (reads_compoundPart? hnext).cons_kstar (ih h)
  | case3 l _ => exact (Reads.nil_kstar _).mul (reads_selectorIndex? h)

theorem reads_compound? (h : c.compound? = some l) : Reads compound c l.cursor := by
  obtain ⟨next, hnext, hmore⟩ := Option.bind_eq_some_iff.1 h
  have hread := (reads_compoundPart? hnext).mul (reads_compoundFrom hmore)
  rwa [← mul_assoc] at hread

theorem reads_chainFrom (h : chainFrom l = some m) :
    Reads ((gap * compound)∗ * (one isHorizontalBlank)∗) l.cursor m.cursor := by
  fun_induction chainFrom l with
  | case1 l =>
    rw [← Option.some.inj h]
    exact (Reads.nil_kstar _).mul (reads_eatWhile _ _)
  | case2 => cases h
  | case3 l hblank _ _ next hnext ih =>
    have hgap : Reads gap l.cursor (l.eatWhile isHorizontalBlank).cursor :=
      reads_eatWhile_of_head hblank
    exact (hgap.mul (reads_compound? hnext)).cons_kstar (ih h)
  | case4 =>
    cases h
    exact (Reads.nil_kstar _).mul (.nil_kstar _)

theorem reads_selectorBody? (h : selectorBody? l = some m) :
    Reads (({['&']} + chain) * (one isHorizontalBlank)∗) l.cursor m.cursor := by
  rw [selectorBody?_eq] at h
  split at h
  · next hand =>
    cases h
    exact ((reads_eat? hand).mul (.nil_kstar _)).mono fun _ hw => by
      rw [add_mul]
      exact .inl hw
  · obtain ⟨next, hnext, hmore⟩ := Option.bind_eq_some_iff.1 h
    have hread := (reads_compound? hnext).mul (reads_chainFrom (l := next.since l.reaches) hmore)
    rw [← mul_assoc] at hread
    exact hread.mono fun _ hw => by
      rw [add_mul]
      exact .inr hw

theorem reads_enhancedSelector? (h : c.enhancedSelector? = some l) :
    Reads selector c l.cursor := by
  cases hopen : c.eat ['{', '{'] with
  | none => simp [enhancedSelector?_of_none hopen] at h
  | some d =>
    rw [enhancedSelector?_of_open hopen] at h
    obtain ⟨body, hbody, hclose⟩ := Option.bind_eq_some_iff.1 h
    have hbraces : Reads {['{', '{']} c d := ⟨_, rfl, consumes_eat rfl hopen⟩
    have hread := (((hbraces.mul (reads_eatWhile isHorizontalBlank d)).mul
      (reads_selectorBody? hbody)).mul (reads_eatWhile isHorizontalBlank _)).mul (reads_eat? hclose)
    have hblanks : (one isHorizontalBlank)∗ * (one isHorizontalBlank)∗ =
      (one isHorizontalBlank)∗ := kstar_mul_kstar _
    simp only [mul_assoc] at hread
    rw [← mul_assoc (one isHorizontalBlank)∗ (one isHorizontalBlank)∗, hblanks] at hread
    simpa only [selector, mul_assoc] using hread

/-! ## Nothing is missed

Where a word of the grammar lies ahead and is not followed by what goes on with it, its reader
takes the whole word.
-/

/-- The reader goes as far as to `r`. -/
def Ends (a : Option c.Later) (r : List Char) : Prop := ∃ l, a = some l ∧ l.cursor.rest = r

theorem startsWith_append {text : List Char} (h : c.rest = text ++ r) : c.startsWith text := by
  rw [startsWith, List.isPrefixOf_iff_prefix, h]
  exact List.prefix_append text r

theorem eat_append {text : List Char} (h : c.rest = text ++ r) :
    ∃ d, c.eat text = some d ∧ d.rest = r :=
  ⟨_, if_pos (startsWith_append h), by simp [h]⟩

theorem ends_eat? {text : List Char} (inline : text.all isInlineAscii)
    (h : l.cursor.rest = text ++ r) : Ends (l.eat? text inline) r := by
  obtain ⟨d, hd, hrest⟩ := eat_append h
  exact ⟨_, Later.eat?_of_some inline hd, hrest⟩

theorem eat?_eq_none {text : List Char} (inline : text.all isInlineAscii)
    (h : ¬ text <+: l.cursor.rest) : l.eat? text inline = none := by
  refine Later.eat?_of_none inline (if_neg fun hprefix => h ?_)
  exact List.isPrefixOf_iff_prefix.1 hprefix

theorem rest_eatWhile_append (hu : ∀ ch ∈ u, p ch) (hr : r.head?.any p = false)
    (h : c.rest = u ++ r) : (c.eatWhile p).rest = r := by
  obtain ⟨pos, text⟩ := c
  obtain rfl : text = u ++ r := h
  rw [FeatureScan.rest_eatWhile, List.dropWhile_append_of_pos hu]
  cases r with
  | nil => rfl
  | cons ch r => exact List.dropWhile_cons_of_neg (by simpa using hr)

theorem ends_selectorName? (hw : w ∈ name) (hr : r.head?.any isSelectorNamePart = false)
    (h : c.rest = w ++ r) : Ends c.selectorName? r := by
  obtain ⟨pos, text⟩ := c
  obtain ⟨ch, t, rfl, hch, ht⟩ := mem_one_mul.1 hw
  obtain rfl : text = ch :: (t ++ r) := h
  refine ⟨_, if_pos hch, ?_⟩
  exact rest_eatWhile_append ht hr rfl

theorem ends_compoundPart? (hw : w ∈ part) (hr : r.head?.any isSelectorNamePart = false)
    (h : c.rest = w ++ r) : Ends c.compoundPart? r := by
  obtain ⟨pos, text⟩ := c
  rcases part_cases hw with ⟨ch, t, rfl, hch, ht⟩ | ⟨ch, t, rfl, hdot, ht⟩
  · obtain rfl : text = ch :: (t ++ r) := h
    have hdot : ¬ (ch = '.' ∨ ch = '#') := by
      rintro (rfl | rfl)
      · exact absurd hch (by decide)
      · exact absurd hch (by decide)
    rw [compoundPart?_cons, if_neg hdot]
    exact ends_selectorName? (mem_one_mul.2 ⟨ch, t, rfl, hch, ht⟩) hr rfl
  · obtain rfl : text = ch :: (t ++ r) := h
    rw [compoundPart?_cons, if_pos hdot]
    obtain ⟨l, hl, hrest⟩ :=
      ends_selectorName? (c := advance ⟨pos, ch :: (t ++ r)⟩) ht hr rfl
    exact ⟨_, by rw [hl]; rfl, hrest⟩

/-- What may stand behind a compound: a blank, or the closing braces. -/
def isClosing (ch : Char) : Bool := isHorizontalBlank ch || ch = '}'

/-- A part of a compound may begin with this character. -/
def startsPart (ch : Char) : Bool := ch = '.' || ch = '#' || isNameStart ch

theorem eq_of_isClosing {ch : Char} (h : isClosing ch) : ch = ' ' ∨ ch = '\t' ∨ ch = '}' := by
  simpa [isClosing, isHorizontalBlank, or_assoc] using h

/-- A class without blanks and closing braces does not go on behind a compound. -/
theorem head_closing {q : Char → Bool} (hspace : q ' ' = false) (htab : q '\t' = false)
    (hbrace : q '}' = false) (hr : r.head?.any isClosing) : r.head?.any q = false := by
  cases r with
  | nil => rfl
  | cons ch r =>
    rcases eq_of_isClosing hr with rfl | rfl | rfl
    · exact hspace
    · exact htab
    · exact hbrace

/-- Neither a number nor what stands behind a compound goes on with its parts. -/
theorem head_index {q : Char → Bool} (hspace : q ' ' = false) (htab : q '\t' = false)
    (hbrace : q '}' = false) (hbracket : q '[' = false) (hw : w ∈ 1 + index)
    (hr : r.head?.any isClosing) : (w ++ r).head?.any q = false := by
  rcases hw with rfl | ⟨_, ⟨_, rfl, digits, _, rfl⟩, _, rfl, rfl⟩
  · exact head_closing hspace htab hbrace hr
  · exact hbracket

theorem startsPart_of_mem_part (hu : u ∈ part) : ∃ ch t, u = ch :: t ∧ startsPart ch := by
  rcases part_cases hu with ⟨ch, t, rfl, hch, -⟩ | ⟨ch, t, rfl, hdot, -⟩
  · exact ⟨ch, t, rfl, by simp [startsPart, hch]⟩
  · refine ⟨ch, t, rfl, ?_⟩
    rcases hdot with rfl | rfl
    · rfl
    · rfl

theorem ends_selectorIndex? (hw : w ∈ 1 + index) (hr : r.head?.any isClosing)
    (h : l.cursor.rest = w ++ r) : Ends (selectorIndex? l) r := by
  rw [selectorIndex?_eq]
  rcases hw with rfl | ⟨_, ⟨_, rfl, digits, hdigits, rfl⟩, _, rfl, rfl⟩
  · have hno : ¬ ['['] <+: l.cursor.rest := by
      rw [h]
      rintro ⟨more, rfl⟩
      exact absurd (show isClosing '[' from hr) (by decide)
    rw [eat?_eq_none rfl hno]
    exact ⟨l, rfl, h⟩
  · obtain ⟨ch, t, rfl, hch, ht⟩ := mem_one_mul.1 hdigits
    have hopen : l.cursor.rest = ['['] ++ (ch :: t ++ ([']'] ++ r)) := by simpa using h
    obtain ⟨m, hm, hrest⟩ := ends_eat? rfl hopen
    have hpast : (m.eatWhile Char.isDigit).cursor.rest = [']'] ++ r :=
      rest_eatWhile_append (List.forall_mem_cons.2 ⟨hch, ht⟩) rfl hrest
    have hany : m.cursor.rest.head?.any Char.isDigit := by simpa [hrest] using hch
    simp only [hm, if_pos hany]
    exact ends_eat? rfl hpast

/-- Many parts are read one by one, each as long as possible. -/
theorem ends_compoundFrom (hu : u ∈ part∗) (hw : w ∈ 1 + index) (hr : r.head?.any isClosing)
    (h : l.cursor.rest = u ++ (w ++ r)) : Ends (compoundFrom l) r := by
  have hname : (w ++ r).head?.any isSelectorNamePart = false :=
    head_index (by decide) (by decide) (by decide) (by decide) hw hr
  have hstop : (w ++ r).head?.any startsPart = false :=
    head_index (by decide) (by decide) (by decide) (by decide) hw hr
  -- the reader looks for a part exactly if there is one
  have hhead : ∀ {x : List Char}, x ∈ part∗ → ((x ++ (w ++ r)).head?.any startsPart ↔ x ≠ []) := by
    intro x hx
    rcases mem_kstar_iff.1 hx with rfl | ⟨v, hv, x, -, rfl⟩
    · exact iff_of_false (by simpa using hstop) (fun hne => hne rfl)
    · obtain ⟨ch, t, rfl, hch⟩ := startsPart_of_mem_part hv
      simp [hch]
  fun_induction compoundFrom l generalizing u with
  | case1 l hstart hnone =>
    rw [h] at hstart
    obtain ⟨v, hv, x, -, rfl, hend⟩ := exists_longest hu ((hhead hu).1 hstart) hname
    rw [List.append_assoc] at h
    obtain ⟨next, hnext, -⟩ := ends_compoundPart? hv hend h
    simp [hnext] at hnone
  | case2 l hstart next hnext ih =>
    rw [h] at hstart
    obtain ⟨v, hv, x, hx, rfl, hend⟩ := exists_longest hu ((hhead hu).1 hstart) hname
    rw [List.append_assoc] at h
    obtain ⟨next', hnext', hrest⟩ := ends_compoundPart? hv hend h
    obtain rfl : next = next' := Option.some.inj (hnext.symm.trans hnext')
    exact ih hx hrest
  | case3 l hstart =>
    rw [h] at hstart
    obtain rfl : u = [] := by_contra fun hne => hstart ((hhead hu).2 hne)
    exact ends_selectorIndex? hw hr h

theorem ends_compound? (hw : w ∈ compound) (hr : r.head?.any isClosing) (h : c.rest = w ++ r) :
    Ends c.compound? r := by
  obtain ⟨_, ⟨v, hv, x, hx, rfl⟩, i, hi, rfl⟩ := hw
  have hname : (i ++ r).head?.any isSelectorNamePart = false :=
    head_index (by decide) (by decide) (by decide) (by decide) hi hr
  have hne : v ++ x ≠ [] := by
    obtain ⟨ch, t, rfl, -⟩ := startsPart_of_mem_part hv
    exact List.cons_ne_nil _ _
  obtain ⟨u, hu, y, hy, hsplit, hend⟩ := exists_longest (append_mem_kstar hv hx) hne hname
  have hsplit' : c.rest = u ++ (y ++ (i ++ r)) := by
    rw [h, ← List.append_assoc, ← hsplit]
    simp
  obtain ⟨next, hnext, hrest⟩ := ends_compoundPart? hu hend hsplit'
  obtain ⟨l, hl, hlast⟩ := ends_compoundFrom hy hi hr hrest
  exact ⟨l, by rw [compound?, hnext]; exact hl, hlast⟩

theorem startsPart_of_mem_compound (hw : w ∈ compound) : ∃ ch t, w = ch :: t ∧ startsPart ch := by
  obtain ⟨_, ⟨v, hv, x, -, rfl⟩, i, -, rfl⟩ := hw
  obtain ⟨ch, t, rfl, hch⟩ := startsPart_of_mem_part hv
  exact ⟨ch, _, rfl, hch⟩

theorem not_isHorizontalBlank_of_startsPart {ch : Char} (h : startsPart ch) :
    isHorizontalBlank ch = false ∧ ch ≠ '}' ∧ ch ≠ '&' := by
  have hne : ∀ x, startsPart x = false → ch ≠ x := by
    rintro x hx rfl
    simp [hx] at h
  refine ⟨?_, hne '}' (by decide), hne '&' (by decide)⟩
  simp [isHorizontalBlank, hne ' ' (by decide), hne '\t' (by decide)]

/-- What follows a compound in double braces: blanks with the next one, or the end. -/
theorem head_chain (hu : u ∈ (gap * compound)∗) (hw : ∀ ch ∈ w, isHorizontalBlank ch) :
    (u ++ (w ++ '}' :: '}' :: r)).head?.any isClosing := by
  rcases mem_kstar_iff.1 hu with rfl | ⟨_, ⟨b, hb, x, -, rfl⟩, v, -, rfl⟩
  · cases w with
    | nil => rfl
    | cons ch w => simp [isClosing, hw]
  · obtain ⟨ch, t, rfl, hch, -⟩ := mem_one_mul.1 hb
    simp [isClosing, hch]

/-- Behind the blanks stands the end, or the next compound. -/
theorem rest_gap (hu : u ∈ (gap * compound)∗) (hw : ∀ ch ∈ w, isHorizontalBlank ch)
    (h : c.rest = u ++ (w ++ '}' :: '}' :: r)) :
    (c.eatWhile isHorizontalBlank).rest = '}' :: '}' :: r ∨
      ∃ v ∈ compound, ∃ y ∈ (gap * compound)∗, c.rest.head?.any isHorizontalBlank ∧
        (c.eatWhile isHorizontalBlank).rest = v ++ (y ++ (w ++ '}' :: '}' :: r)) := by
  rcases mem_kstar_iff.1 hu with rfl | ⟨_, ⟨b, hb, v, hv, rfl⟩, y, hy, rfl⟩
  · exact .inl (rest_eatWhile_append hw rfl h)
  · obtain ⟨ch, t, rfl, hch, ht⟩ := mem_one_mul.1 hb
    obtain ⟨x, z, rfl, hx⟩ := startsPart_of_mem_compound hv
    have hblank : ∀ a ∈ ch :: t, isHorizontalBlank a := List.forall_mem_cons.2 ⟨hch, ht⟩
    refine .inr ⟨x :: z, hv, y, hy, by simp [h, hch], ?_⟩
    refine rest_eatWhile_append hblank ?_ (by simp [h])
    simpa using (not_isHorizontalBlank_of_startsPart hx).1

theorem not_startsWith_of_compound {v : List Char} (hv : v ∈ compound) (h : c.rest = v ++ r) :
    c.startsWith ['}', '}'] = false := by
  obtain ⟨x, z, rfl, hx⟩ := startsPart_of_mem_compound hv
  have hne := (not_isHorizontalBlank_of_startsPart hx).2.1
  simp [startsWith, h, List.isPrefixOf_cons_cons, hne.symm]

/-- The reader of a chain stops in front of the closing braces, behind the blanks there. -/
theorem ends_chainFrom (hu : u ∈ (gap * compound)∗) (hw : ∀ ch ∈ w, isHorizontalBlank ch)
    (h : l.cursor.rest = u ++ (w ++ '}' :: '}' :: r)) : Ends (chainFrom l) ('}' :: '}' :: r) := by
  have hgap := rest_gap hu hw h
  fun_induction chainFrom l generalizing u with
  | case1 l _ past =>
    rename_i hclose
    rcases hgap with hend | ⟨v, hv, y, hy, -, hrest⟩
    · exact ⟨past, rfl, hend⟩
    · cases hclose.symm.trans (not_startsWith_of_compound hv hrest)
  | case2 l _ past =>
    rename_i hclose hnone
    rcases hgap with hend | ⟨v, hv, y, hy, -, hrest⟩
    · exact absurd (startsWith_append hend) hclose
    · obtain ⟨next, hnext, -⟩ := ends_compound? hv (head_chain hy hw) hrest
      exact absurd (hnext.symm.trans hnone) (by simp)
  | case3 l _ past =>
    rename_i hclose next hnext ih
    rcases hgap with hend | ⟨v, hv, y, hy, -, hrest⟩
    · exact absurd (startsWith_append hend) hclose
    · obtain ⟨next', hnext', hmore⟩ := ends_compound? hv (head_chain hy hw) hrest
      obtain rfl : next = next' := Option.some.inj (hnext.symm.trans hnext')
      exact ih hy hmore (rest_gap hy hw hmore)
  | case4 l hblank =>
    rcases hgap with hend | ⟨v, -, y, -, hhead, -⟩
    · refine ⟨l, rfl, ?_⟩
      rwa [rest_eatWhile_append (u := []) (by simp) (Bool.eq_false_iff.2 hblank) rfl] at hend
    · exact absurd hhead hblank

/-- What stands in double braces is read, with blanks behind it or without them. -/
theorem ends_selectorBody? (hu : u ∈ {['&']} + chain) (hw : ∀ ch ∈ w, isHorizontalBlank ch)
    (h : l.cursor.rest = u ++ (w ++ '}' :: '}' :: r)) :
    ∃ m x, selectorBody? l = some m ∧ (∀ ch ∈ x, isHorizontalBlank ch) ∧
      m.cursor.rest = x ++ '}' :: '}' :: r := by
  rw [selectorBody?_eq]
  rcases hu with rfl | ⟨v, hv, y, hy, rfl⟩
  · have hand : l.cursor.rest = ['&'] ++ (w ++ '}' :: '}' :: r) := h
    obtain ⟨m, hm, hrest⟩ := ends_eat? rfl hand
    exact ⟨m, w, by rw [hm], hw, hrest⟩
  · have hno : ¬ ['&'] <+: l.cursor.rest := by
      obtain ⟨ch, t, rfl, hch⟩ := startsPart_of_mem_compound hv
      rw [h]
      rintro ⟨more, hmore⟩
      exact (not_isHorizontalBlank_of_startsPart hch).2.2 (List.cons.inj hmore).1.symm
    have hsplit : l.cursor.rest = v ++ (y ++ (w ++ '}' :: '}' :: r)) := by simpa using h
    obtain ⟨next, hnext, hmore⟩ := ends_compound? hv (head_chain hy hw) hsplit
    obtain ⟨m, hm, hend⟩ := ends_chainFrom (l := next.since l.reaches) hy hw hmore
    exact ⟨m, [], by rw [eat?_eq_none rfl hno, hnext]; exact hm, by simp, hend⟩

theorem ends_enhancedSelector? (hw : w ∈ selector) (h : c.rest = w ++ r) :
    Ends c.enhancedSelector? r := by
  obtain ⟨_, ⟨_, ⟨_, ⟨_, rfl, x, hx, rfl⟩, u, hu, rfl⟩, y, hy, rfl⟩, _, rfl, rfl⟩ := hw
  have hsplit : c.rest = ['{', '{'] ++ (x ++ (u ++ (y ++ '}' :: '}' :: r))) := by simpa using h
  obtain ⟨d, hd, hrest⟩ := eat_append hsplit
  rw [enhancedSelector?_of_open hd]
  have hbody : (d.eatWhile isHorizontalBlank).rest = u ++ (y ++ '}' :: '}' :: r) := by
    refine rest_eatWhile_append (mem_kstar_one.1 hx) ?_ hrest
    rcases hu with rfl | ⟨v, hv, z, -, rfl⟩
    · rfl
    · obtain ⟨ch, t, rfl, hch⟩ := startsPart_of_mem_compound hv
      simpa using (not_isHorizontalBlank_of_startsPart hch).1
  obtain ⟨m, b, hm, hb, hmore⟩ := ends_selectorBody?
    (l := Later.eatWhile isHorizontalBlank ⟨d, '{', ['{'], consumes_eat rfl hd⟩) hu
    (mem_kstar_one.1 hy) hbody
  rw [hm]
  exact ends_eat? (l := m.eatWhile isHorizontalBlank) rfl (rest_eatWhile_append hb rfl hmore)

/-- The reader of selectors finds one exactly where a word of the grammar begins. -/
theorem enhancedSelector?_isSome_iff (c : Cursor) :
    c.enhancedSelector?.isSome ↔ ∃ w ∈ selector, w <+: c.rest := by
  constructor
  · intro h
    obtain ⟨l, hl⟩ := Option.isSome_iff_exists.1 h
    obtain ⟨w, hw, hread⟩ := reads_enhancedSelector? hl
    exact ⟨w, hw, l.cursor.rest, hread.1.symm⟩
  · rintro ⟨w, hw, r, hr⟩
    obtain ⟨l, hl, -⟩ := ends_enhancedSelector? hw hr.symm
    rw [hl]
    rfl

end Cursor

end Polyglot
