-- SUMMARY: Selectors in double braces are read the same whether or not the text behind a line end is there.
import Polyglot.Dialect
import Polyglot.Proofs.Statement

/-!
# Reading ahead within a statement

A selector in double braces holds no line feed and no semicolon. So wherever a text
may be divided between statements, it is read the same from the text in front of
the division as from the whole. `Cursor.Agree` relates two such cursors, and every
reader of a part of a selector preserves it.
-/

namespace Polyglot

namespace Cursor

/-! ## Texts that may be divided -/

/-- A line feed or a semicolon. -/
def isBreak (ch : Char) : Bool := ch = '\n' || ch = ';'

theorem isBreak_imp {q : Char → Bool} (hline : q '\n' = false) (hsemi : q ';' = false) (ch : Char)
    (h : isBreak ch) : q ch = false := by
  simp only [isBreak, Bool.or_eq_true, decide_eq_true_eq] at h
  rcases h with rfl | rfl
  · exact hline
  · exact hsemi

theorem isBreak_eq_false {q : Char → Bool} {ch : Char} (hq : ∀ x, isBreak x → q x = false)
    (h : q ch) : isBreak ch = false := by
  cases hbreak : isBreak ch with
  | false => rfl
  | true => simp [hq ch hbreak] at h

/-- What reads `text` without meeting a break never reaches `r` behind it. -/
def Screens (text r : List Char) : Prop := r.head?.all isBreak ∨ ∃ ch ∈ text, isBreak ch

/-- The first cursor sees `r` behind the text of the second. Readers of a selector do not
look at positions, so the two may stand at different ones. -/
structure Agree (r : List Char) (c d : Cursor) : Prop where
  rest : c.rest = d.rest ++ r
  screens : Screens d.rest r

/-- Every character between two cursors satisfies `p`. -/
def Spans (p : Char → Bool) (c d : Cursor) : Prop :=
  ∃ text, c.Consumes text d ∧ ∀ ch ∈ text, p ch

theorem Screens.tail {ch : Char} {text r : List Char} (h : Screens (ch :: text) r)
    (hch : isBreak ch = false) : Screens text r := by
  rcases h with h | ⟨x, hx, hbreak⟩
  · exact .inl h
  · rcases List.mem_cons.1 hx with rfl | hx
    · simp [hch] at hbreak
    · exact .inr ⟨x, hx, hbreak⟩

theorem Spans.refl (p : Char → Bool) (c : Cursor) : Spans p c c := ⟨[], .refl c, by simp⟩

theorem Spans.trans {p : Char → Bool} {c d e : Cursor} (h : Spans p c d) (k : Spans p d e) :
    Spans p c e := by
  obtain ⟨u, hu, hp⟩ := h
  obtain ⟨v, hv, hq⟩ := k
  refine ⟨u ++ v, hu.trans hv, fun ch hch => ?_⟩
  rcases List.mem_append.1 hch with hch | hch
  · exact hp ch hch
  · exact hq ch hch

theorem Spans.mono {p q : Char → Bool} {c d : Cursor} (h : Spans p c d)
    (hpq : ∀ ch, p ch → q ch) : Spans q c d := by
  obtain ⟨u, hu, hp⟩ := h
  exact ⟨u, hu, fun ch hch => hpq ch (hp ch hch)⟩

variable {r : List Char} {c d : Cursor} {p : Char → Bool}

/-- A character that is no break is ahead of both cursors or of none. -/
theorem Agree.head (h : Agree r c d) (hp : ∀ ch, isBreak ch → p ch = false) :
    c.rest.head?.any p = d.rest.head?.any p := by
  rw [h.rest]
  cases hd : d.rest with
  | cons ch text => rfl
  | nil =>
    rcases h.screens with hr | ⟨ch, hch, -⟩
    · cases r with
      | nil => rfl
      | cons ch r => simpa using hp ch (by simpa using hr)
    · simp [hd] at hch

theorem Agree.cons (h : Agree r c d) {ch : Char} {text : List Char} (hd : d.rest = ch :: text)
    (hch : isBreak ch = false) :
    Agree r ⟨c.position.advance ch, text ++ r⟩ ⟨d.position.advance ch, text⟩ := by
  refine ⟨rfl, ?_⟩
  have := h.screens
  rw [hd] at this
  exact this.tail hch

theorem Agree.advance (h : Agree r c d) {ch : Char} {text : List Char}
    (hd : d.rest = ch :: text) (hch : isBreak ch = false) : Agree r c.advance d.advance := by
  have hc : c.rest = ch :: (text ++ r) := by rw [h.rest, hd, List.cons_append]
  have hnext := h.cons hd hch
  simpa [Cursor.advance, hc, hd] using hnext

theorem Agree.eatWhile (h : Agree r c d) (hp : ∀ ch, isBreak ch → p ch = false) :
    Agree r (c.eatWhile p) (d.eatWhile p) := by
  obtain ⟨pos, text⟩ := d
  obtain ⟨pos', text'⟩ := c
  obtain ⟨hrest, hscreens⟩ := h
  obtain rfl : text' = text ++ r := hrest
  unfold Cursor.eatWhile
  simp only at hscreens ⊢
  induction text generalizing pos pos' with
  | nil =>
    have hstay : eatWhileFrom p pos' ([] ++ r) = ⟨pos', r⟩ := by
      rcases hscreens with hr | ⟨ch, hch, -⟩
      · cases r with
        | nil => rfl
        | cons ch r =>
          have := hp ch (by simpa using hr)
          simp [eatWhileFrom, this]
      · cases hch
    rw [hstay]
    exact ⟨rfl, hscreens⟩
  | cons ch text ih =>
    rw [List.cons_append, eatWhileFrom, eatWhileFrom]
    by_cases hch : p ch
    · rw [if_pos hch, if_pos hch]
      exact ih _ _ (hscreens.tail (isBreak_eq_false hp hch))
    · rw [if_neg hch, if_neg hch]
      exact ⟨rfl, hscreens⟩

theorem isPrefixOf_of_screens {text x : List Char} (hx : Screens x r)
    (htext : ∀ ch ∈ text, isBreak ch = false) :
    text.isPrefixOf (x ++ r) = text.isPrefixOf x ∧
      (text.isPrefixOf x → Screens (x.drop text.length) r) := by
  induction text generalizing x with
  | nil => exact ⟨by simp, fun _ => hx⟩
  | cons ch text ih =>
    have hch := htext ch List.mem_cons_self
    cases x with
    | cons y x =>
      by_cases hy : ch = y
      · subst hy
        obtain ⟨hsame, hscreens⟩ :=
          ih (hx.tail hch) fun z hz => htext z (List.mem_cons_of_mem ch hz)
        simp only [List.cons_append, List.isPrefixOf_cons_cons, beq_self_eq_true, Bool.true_and]
        exact ⟨hsame, hscreens⟩
      · have hne : (ch == y) = false := beq_false_of_ne hy
        simp [List.isPrefixOf_cons_cons, hne]
    | nil =>
      rcases hx with hr | ⟨z, hz, -⟩
      · cases r with
        | nil => simp
        | cons z r =>
          have hz : isBreak z := by simpa using hr
          have hne : ch ≠ z := by
            rintro rfl
            simp [hch] at hz
          simp [List.isPrefixOf_cons_cons, hne]
      · cases hz

theorem Agree.startsWith (h : Agree r c d) {text : List Char}
    (htext : ∀ ch ∈ text, isBreak ch = false) : c.startsWith text = d.startsWith text := by
  unfold Cursor.startsWith
  rw [h.rest]
  exact (isPrefixOf_of_screens h.screens htext).1

theorem Agree.eat (h : Agree r c d) {text : List Char} (htext : ∀ ch ∈ text, isBreak ch = false) :
    Option.Rel (Agree r) (c.eat text) (d.eat text) := by
  unfold Cursor.eat
  rw [h.startsWith htext]
  split
  · next hprefix =>
    have hle : text.length ≤ d.rest.length := by
      obtain ⟨more, hmore⟩ := List.isPrefixOf_iff_prefix.1 hprefix
      simp [← hmore]
    refine .some ⟨?_, (isPrefixOf_of_screens h.screens htext).2 hprefix⟩
    rw [h.rest, List.drop_append_of_le_length hle]
  · exact .none

/-! ## Parts of a selector -/

section Rel

variable {α β : Type} {R S : α → β → Prop} {b : Option β}

theorem rel_none (h : Option.Rel R none b) : b = none := by
  cases h
  rfl

theorem rel_some {a : α} (h : Option.Rel R (some a) b) : ∃ x, b = some x ∧ R a x := by
  cases h with
  | some h => exact ⟨_, rfl, h⟩

theorem rel_mono {a : Option α} (hRS : ∀ x y, R x y → S x y) (h : Option.Rel R a b) :
    Option.Rel S a b := by
  cases h with
  | none => exact .none
  | some h => exact .some (hRS _ _ h)

end Rel

/-- The characters of a selector between its double braces. -/
def isSelectorText (ch : Char) : Bool :=
  isSelectorNamePart ch || isHorizontalBlank ch || ['.', '#', '[', ']', '&'].contains ch

/-- Two readers that set out from agreeing cursors: both fail, or both read the same text
of a selector. -/
def Alike (r : List Char) (c : Cursor) {c' d' : Cursor} (a : Option c'.Later)
    (b : Option d'.Later) : Prop :=
  Option.Rel (fun l m => Agree r l.cursor m.cursor ∧ Spans isSelectorText c l.cursor) a b


theorem spans_eatWhile (p : Char → Bool) (c : Cursor) : Spans p c (c.eatWhile p) :=
  ⟨_, consumes_eatWhile p c, fun ch hch => List.all_eq_true.1 List.all_takeWhile ch hch⟩

theorem isBreak_of_isSelectorText {ch : Char} (h : isSelectorText ch) : isBreak ch = false :=
  isBreak_eq_false (isBreak_imp (by decide) (by decide)) h

theorem isSelectorText_of_isSelectorNamePart (ch : Char) (h : isSelectorNamePart ch) :
    isSelectorText ch := by
  simp [isSelectorText, h]

theorem isSelectorText_of_isHorizontalBlank (ch : Char) (h : isHorizontalBlank ch) :
    isSelectorText ch := by
  simp [isSelectorText, h]

theorem isNamePart_of_isNameStart {ch : Char} (h : isNameStart ch) : isNamePart ch := by
  have hletter : ch.isAlphanum = (ch.isAlpha || ch.isDigit) := rfl
  simp only [isNameStart, Bool.or_eq_true] at h
  simp only [isNamePart, hletter, Bool.or_eq_true]
  rcases h with (h | h) | h
  · exact .inl (.inl (.inl h))
  · exact .inl (.inr h)
  · exact .inr h

theorem isSelectorNamePart_of_isNameStart {ch : Char} (h : isNameStart ch) :
    isSelectorNamePart ch := by
  simp [isSelectorNamePart, isNamePart_of_isNameStart h]

theorem isSelectorText_of_isDigit (ch : Char) (h : ch.isDigit) : isSelectorText ch := by
  have hletter : ch.isAlphanum = (ch.isAlpha || ch.isDigit) := rfl
  simp [isSelectorText, isSelectorNamePart, isNamePart, hletter, h]

theorem isBreak_of_head {ch : Char} {x : List Char} (h : Screens [] (ch :: x)) :
    isBreak ch := by
  rcases h with h | ⟨z, hz, -⟩
  · simpa using h
  · cases hz

theorem spans_singleton {ch : Char} {x : List Char} {p : Position} (hch : isSelectorText ch) :
    Spans isSelectorText ⟨p, ch :: x⟩ ⟨p.advance ch, x⟩ := by
  refine ⟨[ch], ⟨rfl, rfl⟩, fun y hy => ?_⟩
  rw [List.mem_singleton.1 hy]
  exact hch

theorem selectorName?_alike (h : Agree r c d) :
    Alike r c c.selectorName? d.selectorName? := by
  obtain ⟨p, x⟩ := d
  obtain ⟨p', x'⟩ := c
  obtain rfl : x' = x ++ r := h.rest
  cases x with
  | nil =>
    cases r with
    | nil => exact .none
    | cons z r =>
      have hz : isNameStart z = false :=
        isBreak_imp (by decide) (by decide) z (isBreak_of_head h.screens)
      simp only [selectorName?, List.nil_append, hz]
      exact .none
  | cons ch x =>
    simp only [selectorName?, List.cons_append]
    by_cases hch : isNameStart ch
    · rw [if_pos hch, if_pos hch]
      have hbreak : isBreak ch = false := isBreak_eq_false (isBreak_imp (by decide) (by decide)) hch
      have hnext := (h.cons rfl hbreak).eatWhile (isBreak_imp (q := isSelectorNamePart)
        (by decide) (by decide))
      have hfirst : isSelectorText ch :=
        isSelectorText_of_isSelectorNamePart ch (isSelectorNamePart_of_isNameStart hch)
      refine .some ⟨hnext, (spans_singleton hfirst).trans ?_⟩
      exact (spans_eatWhile _ _).mono isSelectorText_of_isSelectorNamePart
    · rw [if_neg hch, if_neg hch]
      exact .none

/-- A reader that sets out from a later cursor reads the same. -/
theorem Alike.since {c₁ d₁ c' d' : Cursor} {a : Option c₁.Later} {b : Option d₁.Later}
    (h : Alike r c₁ a b) (hspans : Spans isSelectorText c c₁) (hc : c'.Reaches c₁)
    (hd : d'.Reaches d₁) : Alike r c (a.map (·.since hc)) (b.map (·.since hd)) := by
  cases h with
  | none => exact .none
  | some hl => exact .some ⟨hl.1, hspans.trans hl.2⟩

theorem Alike.behind {e c' d' : Cursor} {a : Option c'.Later} {b : Option d'.Later}
    (h : Alike r e a b) (hspans : Spans isSelectorText c e) : Alike r c a b :=
  rel_mono (fun _ _ hl => ⟨hl.1, hspans.trans hl.2⟩) h

/-- Two readers in a row. -/
theorem Alike.bind {c₁ d₁ c₂ d₂ : Cursor} {a : Option c₁.Later} {b : Option d₁.Later}
    {φ : c₁.Later → Option c₂.Later} {ψ : d₁.Later → Option d₂.Later} (h : Alike r c a b)
    (hmore : ∀ l m, Agree r l.cursor m.cursor → Alike r l.cursor (φ l) (ψ m)) :
    Alike r c (a.bind φ) (b.bind ψ) := by
  cases h with
  | none => exact .none
  | some hl => exact (hmore _ _ hl.1).behind hl.2

theorem compoundPart?_cons (p : Position) (ch : Char) (x : List Char) :
    compoundPart? ⟨p, ch :: x⟩ =
      if ch = '.' ∨ ch = '#' then
        (advance ⟨p, ch :: x⟩).selectorName?.map (·.since (reaches_advance _))
      else selectorName? ⟨p, ch :: x⟩ := by
  by_cases hch : ch = '.' ∨ ch = '#'
  · rw [if_pos hch]
    rcases hch with rfl | rfl
    · rfl
    · rfl
  · rw [if_neg hch]
    unfold compoundPart?
    split
    · next heq => exact absurd (.inl (List.cons.inj heq).1) hch
    · next heq => exact absurd (.inr (List.cons.inj heq).1) hch
    · rfl

theorem compoundPart?_alike (h : Agree r c d) :
    Alike r c c.compoundPart? d.compoundPart? := by
  obtain ⟨p, x⟩ := d
  obtain ⟨p', x'⟩ := c
  obtain rfl : x' = x ++ r := h.rest
  have hname := selectorName?_alike h
  cases x with
  | nil =>
    cases r with
    | nil => exact hname
    | cons z r =>
      have hz := isBreak_of_head h.screens
      have hdot : ¬ (z = '.' ∨ z = '#') := by
        rintro (rfl | rfl)
        · exact absurd hz (by decide)
        · exact absurd hz (by decide)
      rw [List.nil_append] at hname ⊢
      rw [compoundPart?_cons, if_neg hdot]
      exact hname
  | cons ch x =>
    rw [List.cons_append, compoundPart?_cons, compoundPart?_cons]
    by_cases hdot : ch = '.' ∨ ch = '#'
    · rw [if_pos hdot, if_pos hdot]
      obtain ⟨htext, hbreak⟩ : isSelectorText ch ∧ isBreak ch = false := by
        rcases hdot with rfl | rfl
        · exact ⟨by decide, by decide⟩
        · exact ⟨by decide, by decide⟩
      exact (selectorName?_alike (h.cons rfl hbreak)).since (spans_singleton htext) _ _
    · rw [if_neg hdot, if_neg hdot]
      exact hname

/-! ## Fixed texts -/

/-- The cursor behind a text of one line that stands ahead of a later cursor. -/
def Later.eat? {c : Cursor} (l : c.Later) (text : List Char) (inline : text.all isInlineAscii) :
    Option c.Later :=
  match h : l.cursor.eat text with
  | some d => some (l.move d ⟨_, consumes_eat inline h⟩)
  | none => none

theorem Later.eat?_of_some {l : c.Later} {text : List Char} (inline : text.all isInlineAscii)
    (h : l.cursor.eat text = some d) :
    l.eat? text inline = some (l.move d ⟨_, consumes_eat inline h⟩) := by
  unfold Later.eat?
  split
  · next e he =>
    obtain rfl : e = d := Option.some.inj (he.symm.trans h)
    rfl
  · next he => simp [he] at h

theorem Later.eat?_of_none {l : c.Later} {text : List Char} (inline : text.all isInlineAscii)
    (h : l.cursor.eat text = none) : l.eat? text inline = none := by
  unfold Later.eat?
  split
  · next e he => simp [he] at h
  · rfl

theorem Agree.eat? {c' d' : Cursor} {l : c'.Later} {m : d'.Later} {text : List Char}
    (h : Agree r l.cursor m.cursor) (inline : text.all isInlineAscii)
    (htext : ∀ ch ∈ text, isBreak ch = false) :
    Option.Rel (fun l' m' => Agree r l'.cursor m'.cursor ∧ l.cursor.Consumes text l'.cursor)
      (l.eat? text inline) (m.eat? text inline) := by
  have heat := h.eat htext
  cases hl : l.cursor.eat text with
  | none =>
    rw [Later.eat?_of_none inline hl, Later.eat?_of_none inline (rel_none (hl ▸ heat))]
    exact .none
  | some e =>
    obtain ⟨e', hm, he⟩ := rel_some (hl ▸ heat)
    rw [Later.eat?_of_some inline hl, Later.eat?_of_some inline hm]
    exact .some ⟨he, consumes_eat inline hl⟩

theorem eat?_alike {c' d' : Cursor} {l : c'.Later} {m : d'.Later}
    (h : Agree r l.cursor m.cursor) (ch : Char) (inline : [ch].all isInlineAscii)
    (hch : isSelectorText ch) :
    Alike r l.cursor (l.eat? [ch] inline) (m.eat? [ch] inline) := by
  have hbreak : isBreak ch = false := isBreak_of_isSelectorText hch
  have heat := h.eat? inline (by simpa using hbreak : ∀ x ∈ [ch], isBreak x = false)
  refine rel_mono (fun l' m' hmore => ⟨hmore.1, [ch], hmore.2, ?_⟩) heat
  simpa using hch

theorem selectorIndex?_eq (l : c.Later) :
    selectorIndex? l = match l.eat? ['['] rfl with
      | none => some l
      | some digits =>
        if digits.cursor.rest.head?.any Char.isDigit then
          (digits.eatWhile Char.isDigit).eat? [']'] rfl
        else none := by
  unfold selectorIndex?
  split
  · next hl => rw [Later.eat?_of_none rfl hl]
  · next d hl =>
    rw [Later.eat?_of_some rfl hl]
    simp only
    split
    · next e he => rw [Later.eat?_of_some rfl he]
    · next he => rw [Later.eat?_of_none rfl he, ite_self]

theorem selectorIndex?_alike {c' d' : Cursor} {l : c'.Later} {m : d'.Later}
    (h : Agree r l.cursor m.cursor) :
    Alike r l.cursor (selectorIndex? l) (selectorIndex? m) := by
  rw [selectorIndex?_eq, selectorIndex?_eq]
  have hopen := eat?_alike h '[' rfl (by decide)
  generalize l.eat? ['['] rfl = a at hopen ⊢
  generalize m.eat? ['['] rfl = b at hopen ⊢
  cases hopen with
  | none => exact .some ⟨h, .refl _ _⟩
  | @some digits digits' hdigits =>
    have hany : digits.cursor.rest.head?.any Char.isDigit =
        digits'.cursor.rest.head?.any Char.isDigit :=
      hdigits.1.head (isBreak_imp (by decide) (by decide))
    have hpast : Agree r (digits.eatWhile Char.isDigit).cursor
        (digits'.eatWhile Char.isDigit).cursor :=
      hdigits.1.eatWhile (isBreak_imp (by decide) (by decide))
    have hspans : Spans isSelectorText l.cursor (digits.eatWhile Char.isDigit).cursor :=
      hdigits.2.trans ((spans_eatWhile _ _).mono isSelectorText_of_isDigit)
    simp only [hany]
    split
    · exact (eat?_alike hpast ']' rfl (by decide)).behind hspans
    · exact .none

theorem compoundFrom_alike {c' d' : Cursor} {l : c'.Later} {m : d'.Later}
    (h : Agree r l.cursor m.cursor) : Alike r l.cursor (compoundFrom l) (compoundFrom m) := by
  have hany := h.head (p := fun ch => ch = '.' || ch = '#' || isNameStart ch)
    (isBreak_imp (by decide) (by decide))
  have hpart := compoundPart?_alike h
  fun_induction compoundFrom l generalizing m with
  | case1 l hhead hl =>
    have hm : m.cursor.compoundPart? = none := rel_none (hl ▸ hpart)
    rw [compoundFrom.eq_def m, ← hany, if_pos hhead, hm]
    exact .none
  | case2 l hhead part hl ih =>
    obtain ⟨part', hm, hnext, hspans⟩ := rel_some (hl ▸ hpart)
    rw [compoundFrom.eq_def m, ← hany, if_pos hhead, hm]
    have hmore := ih (m := part'.since m.reaches) hnext
      (hnext.head (isBreak_imp (by decide) (by decide))) (compoundPart?_alike hnext)
    exact hmore.behind hspans
  | case3 l hhead =>
    rw [compoundFrom.eq_def m, ← hany, if_neg hhead]
    exact selectorIndex?_alike h

theorem compound?_alike (h : Agree r c d) : Alike r c c.compound? d.compound? :=
  (compoundPart?_alike h).bind fun _ _ => compoundFrom_alike

theorem Agree.gap {c' d' : Cursor} {l : c'.Later} {m : d'.Later} (h : Agree r l.cursor m.cursor) :
    Agree r (l.eatWhile isHorizontalBlank).cursor (m.eatWhile isHorizontalBlank).cursor ∧
      Spans isSelectorText l.cursor (l.eatWhile isHorizontalBlank).cursor :=
  ⟨h.eatWhile (isBreak_imp (by decide) (by decide)),
    (spans_eatWhile _ _).mono isSelectorText_of_isHorizontalBlank⟩

theorem chainFrom_alike {c' d' : Cursor} {l : c'.Later} {m : d'.Later}
    (h : Agree r l.cursor m.cursor) : Alike r l.cursor (chainFrom l) (chainFrom m) := by
  have hany := h.head (p := isHorizontalBlank) (isBreak_imp (by decide) (by decide))
  obtain ⟨hagree, hspans⟩ := h.gap
  have hclosed : (l.eatWhile isHorizontalBlank).cursor.startsWith ['}', '}'] =
      (m.eatWhile isHorizontalBlank).cursor.startsWith ['}', '}'] :=
    hagree.startsWith (by simp [isBreak])
  have hnext := compound?_alike hagree
  fun_induction chainFrom l generalizing m with
  | case1 l hhead gap =>
    rename_i hclose
    rw [chainFrom.eq_def m, ← hany, if_pos hhead]
    simp only
    rw [if_pos (hclosed.symm.trans hclose)]
    exact .some ⟨hagree, hspans⟩
  | case2 l hhead gap =>
    rename_i hclose hl
    have hm : (m.eatWhile isHorizontalBlank).cursor.compound? = none := rel_none (hl ▸ hnext)
    rw [chainFrom.eq_def m, ← hany, if_pos hhead]
    simp only
    rw [if_neg (hclosed ▸ hclose), hm]
    exact .none
  | case3 l hhead gap =>
    rename_i hclose part hl ih
    obtain ⟨part', hm, hpart, hbehind⟩ := rel_some (hl ▸ hnext)
    rw [chainFrom.eq_def m, ← hany, if_pos hhead]
    simp only
    rw [if_neg (hclosed ▸ hclose), hm]
    let m' := part'.since (m.eatWhile isHorizontalBlank).reaches
    have hm' : Agree r (part.since gap.reaches).cursor m'.cursor := hpart
    have hmore := ih hm' (hm'.head (isBreak_imp (by decide) (by decide))) hm'.gap.1 hm'.gap.2
      (hm'.gap.1.startsWith (by simp [isBreak])) (compound?_alike hm'.gap.1)
    exact hmore.behind (hspans.trans hbehind)
  | case4 l hhead =>
    rw [chainFrom.eq_def m, ← hany, if_neg hhead]
    exact .some ⟨h, .refl _ _⟩

theorem plain_of_isSelectorText {ch : Char} (h : isSelectorText ch) : GuardSet.script.Plain ch :=
  GuardSet.plain_of_class (by decide) (by decide) (by decide) (by decide) h

/-- The text between two cursors is code, its braces match, and it holds no break. -/
def Inline (c d : Cursor) : Prop :=
  ∃ code, c.Consumes code d ∧ c.Passes .script code d ∧ braceDepth code = 0 ∧
    ∀ ch ∈ code, isBreak ch = false

theorem inline_selector {c₁ c₂ c₃ : Cursor} (hopen : c.Consumes ['{', '{'] c₁)
    (hinner : Spans isSelectorText c₁ c₂) (hclose : c₂.Consumes ['}', '}'] c₃) : Inline c c₃ := by
  obtain ⟨u, hu, htext⟩ := hinner
  have hread := (hopen.trans hu).trans hclose
  have hplain : ∀ ch ∈ ['{', '{'] ++ u ++ ['}', '}'],
      GuardSet.script.Plain ch ∧ isBreak ch = false := by
    intro ch hch
    simp only [List.mem_append, List.mem_cons, List.not_mem_nil, or_false, or_self] at hch
    rcases hch with (rfl | hch) | rfl
    · exact ⟨GuardSet.plain_of (by decide) (by decide) (.inr rfl), by decide⟩
    · exact ⟨plain_of_isSelectorText (htext ch hch), isBreak_of_isSelectorText (htext ch hch)⟩
    · exact ⟨GuardSet.plain_of (by decide) (by decide) (.inr rfl), by decide⟩
  have hzero : braceDepth u = 0 := braceDepth_of_class (by decide) (by decide) htext
  refine ⟨_, hread, hread.passes_of_plain fun ch hch => (hplain ch hch).1, ?_,
    fun ch hch => (hplain ch hch).2⟩
  rw [braceDepth_append, braceDepth_append, hzero]
  decide

/-! ## The whole selector -/

/-- What stands between the blanks in double braces: an ampersand or a chain of compounds. -/
def selectorBody? {c : Cursor} (gap : c.Later) : Option c.Later :=
  match hg : gap.cursor.eat ['&'] with
  | some e => some (gap.move e ⟨_, consumes_eat rfl hg⟩)
  | none => gap.cursor.compound?.bind fun next => chainFrom (next.since gap.reaches)

theorem selectorBody?_eq (gap : c.Later) :
    selectorBody? gap = match gap.eat? ['&'] rfl with
      | some l => some l
      | none => gap.cursor.compound?.bind fun next => chainFrom (next.since gap.reaches) := by
  unfold selectorBody?
  split
  · next e he => rw [Later.eat?_of_some rfl he]
  · next he => rw [Later.eat?_of_none rfl he]

/-- A selector behind its opening braces. -/
theorem enhancedSelector?_of_open (h : c.eat ['{', '{'] = some d) :
    c.enhancedSelector? =
      (selectorBody? (Later.eatWhile isHorizontalBlank ⟨d, '{', ['{'], consumes_eat rfl h⟩)).bind
        fun l => (l.eatWhile isHorizontalBlank).eat? ['}', '}'] rfl := by
  unfold enhancedSelector?
  split
  · next hc => simp [hc] at h
  · next e hc =>
    obtain rfl : e = d := Option.some.inj (hc.symm.trans h)
    rfl

theorem enhancedSelector?_of_none (h : c.eat ['{', '{'] = none) : c.enhancedSelector? = none := by
  unfold enhancedSelector?
  split
  · rfl
  · next e hc => simp [hc] at h

theorem selectorBody?_alike {c' d' : Cursor} {l : c'.Later} {m : d'.Later}
    (h : Agree r l.cursor m.cursor) : Alike r l.cursor (selectorBody? l) (selectorBody? m) := by
  have hand := eat?_alike h '&' rfl (by decide)
  rw [selectorBody?_eq, selectorBody?_eq]
  generalize l.eat? ['&'] rfl = a at hand ⊢
  generalize m.eat? ['&'] rfl = b at hand ⊢
  cases hand with
  | some hmore => exact .some hmore
  | none =>
    exact (compound?_alike h).bind fun next next' hnext =>
      chainFrom_alike (l := next.since l.reaches) (m := next'.since m.reaches) hnext

/-- A selector in double braces is read the same from both cursors. -/
theorem enhancedSelector?_agree (h : Agree r c d) :
    Option.Rel (fun l m => Agree r l.cursor m.cursor ∧ Inline c l.cursor)
      c.enhancedSelector? d.enhancedSelector? := by
  have heat : Option.Rel (Agree r) (c.eat ['{', '{']) (d.eat ['{', '{']) :=
    h.eat (by simp [isBreak])
  cases hc : c.eat ['{', '{'] with
  | none =>
    rw [enhancedSelector?_of_none hc, enhancedSelector?_of_none (rel_none (hc ▸ heat))]
    exact .none
  | some c₁ =>
    obtain ⟨d₁, hd, hagree⟩ := rel_some (hc ▸ heat)
    rw [enhancedSelector?_of_open hc, enhancedSelector?_of_open hd]
    have hopen : c.Consumes ['{', '{'] c₁ := consumes_eat rfl hc
    let l : c.Later := ⟨c₁, '{', ['{'], hopen⟩
    let m : d.Later := ⟨d₁, '{', ['{'], consumes_eat rfl hd⟩
    obtain ⟨hgap, hblank⟩ := Agree.gap (l := l) (m := m) hagree
    have hbody := (selectorBody?_alike hgap).behind hblank
    generalize selectorBody? (l.eatWhile isHorizontalBlank) = a at hbody ⊢
    generalize selectorBody? (m.eatWhile isHorizontalBlank) = b at hbody ⊢
    cases hbody with
    | none => exact .none
    | some hinner =>
      obtain ⟨hgap₁, hblank₁⟩ := hinner.1.gap
      refine rel_mono (fun l' m' hclose => ⟨hclose.1, ?_⟩)
        (hgap₁.eat? rfl (by simp [isBreak]))
      exact inline_selector hopen (hinner.2.trans hblank₁) hclose.2

theorem inline_enhancedSelector? {past : c.Later} (h : c.enhancedSelector? = some past) :
    Inline c past.cursor := by
  have hself : Agree [] c c := ⟨(List.append_nil _).symm, .inl rfl⟩
  have hread := enhancedSelector?_agree hself
  rw [h] at hread
  cases hread with
  | some hpast => exact hpast.2

end Cursor

end Polyglot
