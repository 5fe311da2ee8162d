-- SUMMARY: A value stands outside of strings and comments unless a comment begins in a property.
import Polyglot.Proofs.Literal
import Polyglot.Proofs.Reading

/-!
# Properties and comments

The reader of properties passes over strings and comments only where it looks for the next name.
From there on it reads name, separator and value character by character. So a value may hold a
comment, and the reader may stop within one and take what stands there for properties. A value
that is noted stands outside of all strings and comments, with its name and its separator, exactly
if the name does and no comment begins in the property; and all names do as long as no comment
begins in a property that was read before (`Fragment.clear_properties`).
-/

namespace Polyglot

/-- A property as it is read: where its name begins and ends, where the separator is looked for,
where the reading stops, and the value that is noted. -/
structure Property where
  name : Cursor
  nameEnd : Cursor
  separator : Cursor
  stop : Cursor
  literal : Option Literal
  deriving DecidableEq

namespace Cursor

variable {set : GuardSet} {separators : List Char} {fresh : Bool}
variable {c d e n a b : Cursor} {p : Property} {l : Literal}

/-! ## Regions and what is clear of them -/

/-- In the walk from `c` a string or a comment begins at `a` and ends at `b`, which is the end of
the text if it is never closed. -/
def Guards (set : GuardSet) (c a b : Cursor) : Prop :=
  (∃ code, c.Passes set code a) ∧ ∃ guard ≠ .clear, a.skipGuarded set = (guard, b)

/-- No string and no comment of the walk from `c` has a byte between the offsets `i` and `j`. -/
def Clear (set : GuardSet) (c : Cursor) (i j : Nat) : Prop :=
  ∀ a b, c.Guards set a b → j ≤ a.offset ∨ b.offset ≤ i

/-- Between two places a comment begins, by its first characters. -/
def CommentBegins (set : GuardSet) (c e : Cursor) : Prop :=
  ∃ d kind, c.Reaches d ∧ d.StrictlyReaches e ∧ set.kindAt d.rest = some kind ∧ kind ≠ .string

theorem skipGuarded_of_kindAt (h : (set.kindAt d.rest).isSome) :
    ∃ guard ≠ .clear, ∃ e, d.skipGuarded set = (guard, e) ∧ d.StrictlyReaches e := by
  unfold skipGuarded
  split
  · next kind after _ => exact ⟨.skipped kind, by simp, _, rfl, after.strictlyReaches⟩
  · next issue after _ => exact ⟨.unterminated issue, by simp, _, rfl, after.strictlyReaches⟩
  · next hfront =>
    rw [front_eq_finish_iff.1 hfront] at h
    cases h
  · next hfront =>
    rw [kindAt_of_front_code hfront] at h
    cases h

theorem kindAt_of_guards (h : c.Guards set a b) : (set.kindAt a.rest).isSome := by
  obtain ⟨-, guard, hguard, hskip⟩ := h
  obtain ⟨p, text⟩ := a
  cases text with
  | nil =>
    cases hskip
    exact absurd rfl hguard
  | cons ch rest =>
    cases hkind : set.kindAt (ch :: rest) with
    | some kind => rfl
    | none =>
      obtain ⟨after, hfront, -⟩ := front_eq_code hkind p
      simp only [skipGuarded, hfront, Prod.mk.injEq] at hskip
      exact absurd hskip.1.symm hguard

theorem Guards.behind {code : List Char} (hread : c.Passes set code d) (h : d.Guards set a b) :
    c.Guards set a b := by
  obtain ⟨⟨_, hpass⟩, hguard⟩ := h
  exact ⟨⟨_, hread.trans hpass⟩, hguard⟩

/-- Of two places in one text, one is reached from the other. -/
theorem Reaches.total (h : c.Reaches d) (k : c.Reaches e) : d.Reaches e ∨ e.StrictlyReaches d := by
  obtain ⟨u, hu⟩ := h
  obtain ⟨v, hv⟩ := k
  rcases List.append_eq_append_iff.1 (hu.1.symm.trans hv.1) with ⟨w, rfl, hd⟩ | ⟨w, rfl, he⟩
  · exact .inl ⟨w, hd, by rw [hv.2, hu.2, Position.advanceOver_append]⟩
  · have hread : e.Consumes w d := ⟨he, by rw [hv.2, hu.2, Position.advanceOver_append]⟩
    cases w with
    | nil => exact .inl ⟨[], by rw [hread.eq_of_nil]; exact .refl e⟩
    | cons x w => exact .inr ⟨x, w, hread⟩

theorem Reaches.eq_or_strictly (h : c.Reaches d) : d = c ∨ c.StrictlyReaches d := by
  obtain ⟨u, hu⟩ := h
  cases u with
  | nil => exact .inl hu.eq_of_nil
  | cons x u => exact .inr ⟨x, u, hu⟩

/-- Behind a character of code, a place that is reached is reached from there. -/
theorem StrictlyReaches.behind_code {ch : Char} {after : c.Later} (h : c.StrictlyReaches d)
    (ahead : c.front set = .code ch after) : after.cursor.Reaches d := by
  obtain ⟨x, u, hu⟩ := h
  obtain ⟨hrest, hpos⟩ := front_code ahead
  obtain ⟨rfl, hrest'⟩ := List.cons.inj (hu.1.symm.trans hrest)
  exact ⟨u, hrest'.symm, by rw [hu.2, hpos]; rfl⟩

/-- A place that is not at the end of the text lies in code, or in a string or a comment. -/
theorem unguarded_or_guards {c d : Cursor} (h : c.Reaches d) (hd : d.rest ≠ []) :
    c.Unguarded set d ∨ ∃ a b, c.Guards set a b ∧ a.offset ≤ d.offset ∧ d.offset < b.offset := by
  match hfront : c.front set with
  | .finish =>
    obtain ⟨u, hu⟩ := h
    have hempty := hu.1
    rw [front_eq_finish_iff.1 hfront] at hempty
    exact absurd (List.append_eq_nil_iff.1 hempty.symm).2 hd
  | .openRegion issue after =>
    have hskip : c.skipGuarded set = (.unterminated issue, after.cursor) := by
      simp only [skipGuarded, hfront]
    refine .inr ⟨c, after.cursor, ⟨⟨[], .refl c⟩, _, by simp, hskip⟩, h.offset_le, ?_⟩
    rcases h.total after.reaches with hreach | hreach
    · rcases hreach.eq_or_strictly with heq | hlt
      · rw [← heq, atEnd_of_front hfront] at hd
        exact absurd rfl hd
      · exact hlt.offset_lt
    · obtain ⟨x, u, hu⟩ := hreach
      have hempty := hu.1
      rw [atEnd_of_front hfront] at hempty
      cases hempty
  | .region kind after =>
    have hskip : c.skipGuarded set = (.skipped kind, after.cursor) := by
      simp only [skipGuarded, hfront]
    rcases after.reaches.total h with hbehind | hwithin
    · have hshort := after.length_lt
      rcases unguarded_or_guards hbehind hd with hcode | ⟨a, b, hguards, hab⟩
      · exact .inl ((unguarded_region hfront).2 hcode)
      · exact .inr ⟨a, b, hguards.behind (.region hfront (.refl _)), hab⟩
    · exact .inr ⟨c, after.cursor, ⟨⟨[], .refl c⟩, _, by simp, hskip⟩, h.offset_le,
        hwithin.offset_lt⟩
  | .code ch after =>
    rcases h.eq_or_strictly with rfl | hlater
    · exact .inl ⟨⟨[], .refl d⟩, ch, after, hfront⟩
    · have hshort := after.length_lt
      rcases unguarded_or_guards (hlater.behind_code hfront) hd with hcode | ⟨a, b, hguards, hab⟩
      · exact .inl ((unguarded_code hfront).2 (.inr hcode))
      · exact .inr ⟨a, b, hguards.behind (.code hfront (.refl _)), hab⟩
termination_by c.rest.length

theorem exists_front_code (h : set.kindAt c.rest = none) (hc : c.rest ≠ []) :
    ∃ ch after, c.front set = .code ch after := by
  obtain ⟨p, text⟩ := c
  obtain ⟨ch, rest, rfl⟩ := List.exists_cons_of_ne_nil hc
  obtain ⟨after, hfront, -⟩ := front_eq_code h p
  exact ⟨ch, after, hfront⟩

/-- Up to the first place where a string or a comment begins, all is code. -/
theorem passes_or_begins (set : GuardSet) (h : n.Reaches e) :
    ((∃ code, n.Passes set code e) ∧
      ∀ d, n.Reaches d → d.StrictlyReaches e → set.kindAt d.rest = none) ∨
    ∃ d code, n.Passes set code d ∧ d.StrictlyReaches e ∧ (set.kindAt d.rest).isSome := by
  obtain ⟨u, hu⟩ := h
  induction u generalizing n with
  | nil =>
    obtain rfl := hu.eq_of_nil
    refine .inl ⟨⟨[], .refl e⟩, fun d hd hlt => ?_⟩
    exact absurd (Reaches.trans_strictly hd hlt).offset_lt (Nat.lt_irrefl _)
  | cons ch u ih =>
    have hlt : n.StrictlyReaches e := ⟨ch, u, hu⟩
    cases hkind : set.kindAt n.rest with
    | some kind => exact .inr ⟨n, [], .refl n, hlt, by simp [hkind]⟩
    | none =>
      obtain ⟨x, after, hfront⟩ := exists_front_code hkind (by simp [hu.1])
      obtain ⟨hrest, hpos⟩ := front_code hfront
      obtain ⟨rfl, hrest'⟩ := List.cons.inj (hu.1.symm.trans hrest)
      have hread : after.cursor.Consumes u e := ⟨hrest'.symm, by rw [hu.2, hpos]; rfl⟩
      rcases ih hread with ⟨⟨code, hpass⟩, hnone⟩ | ⟨d, code, hpass, hd⟩
      · refine .inl ⟨⟨_, .code hfront hpass⟩, fun d hd hde => ?_⟩
        rcases hd.eq_or_strictly with rfl | hlater
        · exact hkind
        · exact hnone d (hlater.behind_code hfront) hde
      · exact .inr ⟨d, _, .code hfront hpass, hd⟩

/-- Where the walk comes by as code and nothing begins, nothing is guarded. -/
theorem clear_of_none (hn : c.Unguarded set n) (h : n.Reaches e)
    (hnone : ∀ d, n.Reaches d → d.StrictlyReaches e → set.kindAt d.rest = none) :
    c.Clear set n.offset e.offset := by
  obtain ⟨⟨_, hto⟩, ch, after, hfront⟩ := hn
  intro a b hguards
  have hbegins := kindAt_of_guards hguards
  obtain ⟨⟨_, hpass⟩, guard, hguard, hskip⟩ := hguards
  rcases hto.linear hpass with ⟨_, -, hna⟩ | ⟨_, -, han⟩
  · left
    rcases h.total hna.reaches with hea | hae
    · exact hea.offset_le
    · rw [hnone a hna.reaches hae] at hbegins
      cases hbegins
  · right
    cases han with
    | refl =>
      rw [kindAt_of_front_code hfront] at hbegins
      cases hbegins
    | region ahead more =>
      simp only [skipGuarded, ahead, Prod.mk.injEq] at hskip
      rw [← hskip.2]
      exact more.reaches.offset_le
    | code ahead more =>
      rw [kindAt_of_front_code ahead] at hbegins
      cases hbegins

theorem Clear.mono {i j i' j' : Nat} (h : c.Clear set i j) (hi : i ≤ i') (hj : j' ≤ j) :
    c.Clear set i' j' := fun a b hguards =>
  (h a b hguards).imp (Nat.le_trans hj) (Nat.le_trans · hi)

/-! ## Characters on the way -/

/-- Every character from `c` to `e` satisfies `P`. -/
def Along (P : Char → Prop) (c e : Cursor) : Prop := ∃ u, c.Consumes u e ∧ ∀ ch ∈ u, P ch

variable {P : Char → Prop}

theorem Along.trans (h : c.Along P d) (k : d.Along P e) : c.Along P e := by
  obtain ⟨u, hu, hall⟩ := h
  obtain ⟨v, hv, hall'⟩ := k
  exact ⟨u ++ v, hu.trans hv, List.forall_mem_append.2 ⟨hall, hall'⟩⟩

theorem Along.reaches (h : c.Along P e) : c.Reaches e := by
  obtain ⟨u, hu, -⟩ := h
  exact ⟨u, hu⟩

theorem along_eatWhile {q : Char → Bool} (h : ∀ ch, q ch → P ch) (c : Cursor) :
    c.Along P (c.eatWhile q) :=
  ⟨_, c.consumes_eatWhile q, fun ch hch => h ch (List.all_eq_true.1 List.all_takeWhile ch hch)⟩

/-- A class of characters without two of them. -/
theorem not_mem_of_class {q : Char → Bool} {x y : Char} (hx : q x = false) (hy : q y = false)
    (ch : Char) (hch : q ch) : ch ∉ [x, y] := by
  intro hmem
  rcases List.mem_pair.1 hmem with rfl | rfl
  · simp [hx] at hch
  · simp [hy] at hch

/-- What stands at a place on the way. -/
theorem Along.head (h : c.Along P e) (hd : c.Reaches d) (hlt : d.StrictlyReaches e) :
    ∃ ch rest, d.rest = ch :: rest ∧ P ch := by
  obtain ⟨u, hu, hall⟩ := h
  obtain ⟨v, hv⟩ := hd
  obtain ⟨ch, w, hw⟩ := hlt
  rw [hu.unique (hv.trans hw)] at hall
  exact ⟨ch, w ++ e.rest, hw.1, hall ch (by simp)⟩

/-! ## Reading a property -/

/-- The property whose name begins with the character before `after`. -/
def readProperty {c : Cursor} (separators : List Char) (after : c.Later) : Property :=
  let nameEnd := after.eatWhile isPropertyNamePart
  let p := property separators after
  ⟨c, nameEnd.cursor, (nameEnd.eatWhile isHorizontalBlank).cursor, p.2.cursor, p.1⟩

/-- The value of the property is noted: it begins at `first` and ends at `last`. Between name,
separator and value there is neither a slash nor a hyphen, one of which begins every comment. -/
structure Noted (p : Property) (l : Literal) (first last : Cursor) : Prop where
  name : p.name.StrictlyReaches p.nameEnd
  gap : p.nameEnd.Along (· ∉ ['/', '-']) p.separator
  separator : p.separator.StrictlyReaches first
  lead : p.separator.Along (· ∉ ['/', '-']) first
  offset : l.offset = first.offset
  text : first.Consumes l.text last
  tail : last.Along (· ∉ ['/', '-']) p.stop

theorem exists_noted {after : c.Later} (hsep : separators ⊆ [':', '='])
    (h : (readProperty separators after).literal = some l) :
    ∃ first last, Noted (readProperty separators after) l first last := by
  obtain ⟨sep, hmem, blanks, space, first, last, hlead, hblanks, hoffset, -, htext, hspace,
    hread⟩ := exists_of_property_eq_some h
  have hblank : ∀ ch, isHorizontalBlank ch → ch ∉ ['/', '-'] := not_mem_of_class rfl rfl
  have hsign : sep ∉ ['/', '-'] := by
    rcases List.mem_pair.1 (hsep hmem) with rfl | rfl <;> decide
  have hplain : ∀ ch ∈ sep :: blanks, ch ∉ ['/', '-'] :=
    List.forall_mem_cons.2 ⟨hsign, fun ch hch => hblank ch (hblanks ch hch)⟩
  exact ⟨first, last, (after.eatWhile isPropertyNamePart).strictlyReaches, along_eatWhile hblank _,
    ⟨sep, blanks, hlead⟩, ⟨_, hlead, hplain⟩, hoffset, htext,
    ⟨space, hread, fun ch hch => not_mem_of_class rfl rfl ch (hspace ch hch)⟩⟩

/-- No quote stands in a property: it would end the value. -/
theorem along_readProperty {ch : Char} {after : c.Later} (hquotes : set.quotes = ['"', '\''])
    (hsep : separators ⊆ [':', '=']) (hfront : c.front set = .code ch after)
    (hname : isNameStart ch) : c.Along (· ∉ set.quotes) (readProperty separators after).stop := by
  rw [hquotes]
  have hblank : ∀ ch, isHorizontalBlank ch → ch ∉ ['"', '\''] := not_mem_of_class rfl rfl
  have hfirst : c.Along (· ∉ ['"', '\'']) after.cursor :=
    ⟨[ch], front_code hfront, by simpa using not_mem_of_class (q := isNameStart) rfl rfl ch hname⟩
  have hpart : ∀ ch, isPropertyNamePart ch → ch ∉ ['"', '\''] := not_mem_of_class rfl rfl
  have hgap := (hfirst.trans (along_eatWhile hpart _)).trans (along_eatWhile hblank _)
  unfold readProperty property
  simp only
  split
  · next hcond =>
    obtain ⟨sep, hhead, hmem⟩ := (Option.any_eq_true _ _).1 hcond
    obtain ⟨rest, hrest⟩ := List.head?_eq_some_iff.1 hhead
    have hquote : sep ∉ ['"', '\''] := by
      rcases List.mem_pair.1 (hsep (List.contains_iff_mem.1 hmem)) with rfl | rfl <;> decide
    have hone : Along (· ∉ ['"', '\'']) _ _ :=
      ⟨[sep], consumes_advance hrest, by simpa using hquote⟩
    have hvalue : ∀ ch, !isValueStop ch → ch ∉ ['"', '\''] :=
      not_mem_of_class (q := fun ch => !isValueStop ch) rfl rfl
    have hlead := (hgap.trans hone).trans (along_eatWhile hblank _)
    exact hlead.trans (along_eatWhile hvalue _)
  · exact hgap

/-! ## The properties of a text -/

/-- The properties that are read from a cursor on; `fresh` says that one may begin here. -/
def properties (separators : List Char) (set : GuardSet) (fresh : Bool) (c : Cursor) :
    List Property :=
  match c.front set with
  | .finish | .openRegion _ _ => []
  | .region _ after => properties separators set false after.cursor
  | .code ch after =>
    if isAsciiSpace ch then properties separators set fresh after.cursor
    else if fresh && isNameStart ch then
      readProperty separators after ::
        properties separators set false (property separators after).2.cursor
    else properties separators set (ch = ';' || ch = '{' || ch = '}') after.cursor
termination_by c.rest.length
decreasing_by all_goals exact Later.length_lt _

/-- The values are those of the properties. -/
theorem valuesFrom_eq (separators : List Char) (set : GuardSet) (fresh : Bool)
    (found : List Literal) (c : Cursor) : valuesFrom separators set fresh found c =
      ((properties separators set fresh c).filterMap Property.literal).reverse ++ found := by
  fun_induction valuesFrom separators set fresh found c with
  | case1 fresh found c hfront | case2 fresh found c issue after hfront =>
    rw [properties.eq_def]
    simp only [hfront]
    rfl
  | case3 fresh found c kind after hfront ih =>
    rw [properties.eq_def]
    simpa only [hfront] using ih
  | case4 fresh found c ch after hfront hspace ih =>
    rw [properties.eq_def]
    simpa only [hfront, if_pos hspace] using ih
  | case5 fresh found c ch after hfront hspace hname p ih =>
    rw [properties.eq_def]
    simp only [hfront, if_neg hspace, if_pos hname, ih]
    have hvalue : (readProperty separators after).literal = p.1 := rfl
    cases hp : p.1 with
    | none => simp [hvalue, hp, p]
    | some l => simp [hvalue, hp, p]
  | case6 fresh found c ch after hfront hspace hname ih =>
    rw [properties.eq_def]
    simpa only [hfront, if_neg hspace, if_neg hname] using ih

/-- A property begins at a letter that the reader takes for code. -/
theorem exists_of_mem_properties {c₀ : Cursor} (hc : c₀.Reaches c)
    (h : p ∈ properties separators set fresh c) :
    ∃ n ch, ∃ after : n.Later, c₀.Reaches n ∧ n.front set = .code ch after ∧ isNameStart ch ∧
      p = readProperty separators after := by
  fun_induction properties separators set fresh c with
  | case1 | case2 => cases h
  | case3 fresh c kind after hfront ih => exact ih (hc.trans after.reaches) h
  | case4 fresh c ch after hfront hspace ih => exact ih (hc.trans after.reaches) h
  | case5 fresh c ch after hfront hspace hname ih =>
    rcases List.mem_cons.1 h with rfl | h
    · exact ⟨c, ch, after, hc, hfront, (Bool.and_eq_true_iff.1 hname).2, rfl⟩
    · exact ih (hc.trans (Later.reaches _)) h
  | case6 fresh c ch after hfront hspace hname ih => exact ih (hc.trans after.reaches) h

/-- Nothing begins in a stretch without quotes in which no comment begins. -/
theorem kindAt_eq_none (h : c.Along (· ∉ set.quotes) e) (hnot : ¬ CommentBegins set c e)
    (hd : c.Reaches d) (hde : d.StrictlyReaches e) : set.kindAt d.rest = none := by
  obtain ⟨ch, rest, hrest, hch⟩ := h.head hd hde
  cases hkind : set.kindAt d.rest with
  | none => rfl
  | some kind =>
    refine absurd ⟨d, kind, hd, hde, hkind, ?_⟩ hnot
    rintro rfl
    rw [hrest, GuardSet.kindAt_string_iff] at hkind
    exact hch hkind

/-- A comment begins with a slash or a hyphen. -/
theorem mem_of_kindAt {ch : Char} {rest : List Char} (hquote : ch ∉ set.quotes)
    (h : (set.kindAt (ch :: rest)).isSome) : ch ∈ ['/', '-'] := by
  by_contra hno
  simp only [List.mem_cons, List.not_mem_nil, or_false, not_or] at hno
  rw [GuardSet.plain_of hquote hno.1 (.inl hno.2) rest] at h
  cases h

/-- A comment that begins in a property with a value begins in the name or in the value. -/
theorem Noted.name_or_value {first last : Cursor} (h : Noted p l first last)
    (hd : p.name.Reaches d) (hstop : d.StrictlyReaches p.stop) {ch : Char} {rest : List Char}
    (hrest : d.rest = ch :: rest) (hsign : ch ∈ ['/', '-']) :
    p.name.offset ≤ d.offset ∧ d.offset < p.nameEnd.offset ∨
      l.offset ≤ d.offset ∧ d.offset < l.offset + byteLength l.text := by
  have hnot : ∀ {a b : Cursor}, a.Along (· ∉ ['/', '-']) b → a.Reaches d →
      ¬ d.StrictlyReaches b := by
    intro a b hab had hdb
    obtain ⟨x, t, hx, hplain⟩ := hab.head had hdb
    obtain ⟨rfl, -⟩ := List.cons.inj (hrest.symm.trans hx)
    exact hplain hsign
  have hname := h.name.reaches
  rcases hname.total hd with hd | hwithin
  · have hgap : p.separator.Reaches d :=
      (h.gap.reaches.total hd).resolve_right (hnot h.gap hd)
    have hlead : first.Reaches d :=
      (h.separator.reaches.total hgap).resolve_right (hnot h.lead hgap)
    rcases Reaches.total ⟨_, h.text⟩ hlead with htail | hvalue
    · exact absurd hstop (hnot h.tail htail)
    · right
      have hend := h.text.offset_eq
      have hle := hlead.offset_le
      have hlt := hvalue.offset_lt
      have hoffset := h.offset
      omega
  · exact .inl ⟨hd.offset_le, hwithin.offset_lt⟩

end Cursor

/-- The value that is noted, the name and the separator have no byte in common with a string or
a comment of the walk from `c`. -/
structure Property.Clear (set : GuardSet) (c : Cursor) (p : Property) (l : Literal) : Prop where
  name : c.Clear set p.name.offset p.nameEnd.offset
  separator : c.Clear set p.separator.offset (p.separator.offset + 1)
  value : c.Clear set l.offset (l.offset + byteLength l.text)

namespace Property

open Cursor

variable {set : GuardSet} {separators : List Char} {fresh : Bool}
variable {c first last : Cursor} {p : Property} {l : Literal}

theorem Clear.unguarded_name (h : p.Clear set c l) (hnoted : Noted p l first last)
    (hreach : c.Reaches p.name) : c.Unguarded set p.name := by
  have hname := hnoted.name.offset_lt
  have hrest : p.name.rest ≠ [] := by
    obtain ⟨ch, u, hu⟩ := hnoted.name
    simp [hu.1]
  refine (unguarded_or_guards hreach hrest).resolve_right ?_
  rintro ⟨a, b, hguards, hle, hlt⟩
  have hapart := h.name a b hguards
  omega

/-- The first comment that begins in a property has its first character in common with the name
or with the value. -/
theorem Clear.not_commentBegins (h : p.Clear set c l) (hnoted : Noted p l first last)
    (hcode : c.Unguarded set p.name) (hquotes : p.name.Along (· ∉ set.quotes) p.stop) :
    ¬ CommentBegins set p.name p.stop := by
  rintro ⟨e, kind, he, hestop, hkind, -⟩
  rcases passes_or_begins set hquotes.reaches with ⟨-, hnone⟩ | ⟨d, code, hpass, hdstop, hsome⟩
  · rw [hnone e he hestop] at hkind
    cases hkind
  · obtain ⟨guard, hguard, b, hskip, hdb⟩ := skipGuarded_of_kindAt hsome
    obtain ⟨⟨_, hto⟩, -⟩ := hcode
    have hguards : c.Guards set d b := .behind hto ⟨⟨code, hpass⟩, guard, hguard, hskip⟩
    have hlt := hdb.offset_lt
    obtain ⟨ch, rest, hrest, hquote⟩ := hquotes.head hpass.reaches hdstop
    rw [hrest] at hsome
    have hsign := mem_of_kindAt hquote hsome
    rcases hnoted.name_or_value hpass.reaches hdstop hrest hsign with hwithin | hwithin
    · have hapart := h.name d b hguards
      omega
    · have hapart := h.value d b hguards
      omega

theorem clear_of_not_commentBegins (hnoted : Noted p l first last)
    (hcode : c.Unguarded set p.name) (hquotes : p.name.Along (· ∉ set.quotes) p.stop)
    (hnot : ¬ CommentBegins set p.name p.stop) : p.Clear set c l := by
  have hclear := clear_of_none hcode hquotes.reaches fun d => kindAt_eq_none hquotes hnot
  have hname := hnoted.name.offset_lt
  have hgap := hnoted.gap.reaches.offset_le
  have hseparator := hnoted.separator.offset_lt
  have hoffset := hnoted.offset
  have htext := hnoted.text.offset_eq
  have htail := hnoted.tail.reaches.offset_le
  exact ⟨hclear.mono (by omega) (by omega), hclear.mono (by omega) (by omega),
    hclear.mono (by omega) (by omega)⟩

end Property

namespace Cursor

variable {set : GuardSet} {separators : List Char} {fresh : Bool}
variable {c : Cursor} {p : Property} {l : Literal} {before behind : List Property}

/-- A value stands outside of strings and comments exactly if its name does and no comment begins
in the property. -/
theorem clear_iff (hquotes : set.quotes = ['"', '\'']) (hsep : separators ⊆ [':', '='])
    (h : p ∈ properties separators set fresh c) (hl : p.literal = some l) :
    p.Clear set c l ↔ c.Unguarded set p.name ∧ ¬ CommentBegins set p.name p.stop := by
  obtain ⟨n, ch, after, hreach, hfront, hname, rfl⟩ := exists_of_mem_properties (.refl c) h
  obtain ⟨first, last, hnoted⟩ := exists_noted hsep hl
  have hunquoted := along_readProperty hquotes hsep hfront hname
  constructor
  · intro hclear
    have hcode := hclear.unguarded_name hnoted hreach
    exact ⟨hcode, hclear.not_commentBegins hnoted hcode hunquoted⟩
  · rintro ⟨hcode, hnot⟩
    exact Property.clear_of_not_commentBegins hnoted hcode hunquoted hnot

/-- A property begins in code if no comment begins in those that were read before it. -/
theorem unguarded_name (hquotes : set.quotes = ['"', '\'']) (hsep : separators ⊆ [':', '='])
    (h : properties separators set fresh c = before ++ p :: behind)
    (hbefore : ∀ q ∈ before, ¬ CommentBegins set q.name q.stop) : c.Unguarded set p.name := by
  fun_induction properties separators set fresh c generalizing before with
  | case1 | case2 => cases before <;> cases h
  | case3 fresh c kind after hfront ih => exact (unguarded_region hfront).2 (ih h hbefore)
  | case4 fresh c ch after hfront hspace ih =>
    exact (unguarded_code hfront).2 (.inr (ih h hbefore))
  | case5 fresh c ch after hfront hspace hname ih =>
    cases before with
    | nil =>
      obtain ⟨rfl, -⟩ := List.cons.inj h
      exact ⟨⟨[], .refl c⟩, ch, after, hfront⟩
    | cons q before =>
      obtain ⟨rfl, hrest⟩ := List.cons.inj h
      have hcode := ih hrest fun q hq => hbefore q (List.mem_cons_of_mem _ hq)
      have hunquoted := along_readProperty hquotes hsep hfront (Bool.and_eq_true_iff.1 hname).2
      have hnone := fun d => kindAt_eq_none (d := d) hunquoted (hbefore _ List.mem_cons_self)
      rcases passes_or_begins set hunquoted.reaches with
        ⟨⟨_, hpass⟩, -⟩ | ⟨d, code, hpass, hd, hsome⟩
      · exact hcode.behind hpass
      · rw [hnone d hpass.reaches hd] at hsome
        cases hsome
  | case6 fresh c ch after hfront hspace hname ih =>
    exact (unguarded_code hfront).2 (.inr (ih h hbefore))

end Cursor

namespace Fragment

open Cursor

/-- The properties that are read when a style sheet or the body of an element is classified. -/
def properties (f : Fragment) : List Property :=
  match f.context with
  | .styleGlobal | .styleLocal => f.cursor.properties [':'] .style true
  | .elementBody => f.cursor.properties [':', '='] .template true
  | _ => []

theorem exists_separators {f : Fragment}
    (h : f.context = .styleGlobal ∨ f.context = .styleLocal ∨ f.context = .elementBody) :
    ∃ separators ⊆ [':', '='], f.context.guardSet.quotes = ['"', '\''] ∧
      f.properties = f.cursor.properties separators f.context.guardSet true ∧
      f.classify.literals = f.cursor.propertyLiterals separators f.context.guardSet := by
  unfold properties classify
  rcases h with h | h | h
  · rw [h]
    exact ⟨[':'], by simp, rfl, rfl, rfl⟩
  · rw [h]
    exact ⟨[':'], by simp, rfl, rfl, rfl⟩
  · rw [h]
    exact ⟨[':', '='], by simp, rfl, rfl, rfl⟩

/-- The literals of a style sheet or of the body of an element are the values of its properties.
A value stands outside of all strings and comments, with its name and its separator, exactly if
its name begins in code and no comment begins from there to where the reading stops. Every name
begins in code as long as no comment begins in an earlier property. -/
theorem clear_properties {f : Fragment}
    (h : f.context = .styleGlobal ∨ f.context = .styleLocal ∨ f.context = .elementBody) :
    let set := f.context.guardSet
    f.classify.literals = f.properties.filterMap Property.literal ∧
    (∀ p ∈ f.properties, ∀ l, p.literal = some l →
      (p.Clear set f.cursor l ↔
        f.cursor.Unguarded set p.name ∧ ¬ CommentBegins set p.name p.stop)) ∧
    ∀ before p behind, f.properties = before ++ p :: behind →
      (∀ q ∈ before, ¬ CommentBegins set q.name q.stop) → f.cursor.Unguarded set p.name := by
  intro set
  obtain ⟨separators, hsep, hquotes, hproperties, hliterals⟩ := exists_separators h
  rw [hproperties, hliterals]
  refine ⟨?_, fun p hp l hl => clear_iff hquotes hsep hp hl, fun before p behind hsplit hbefore =>
    unguarded_name hquotes hsep hsplit hbefore⟩
  rw [propertyLiterals, valuesFrom_eq, List.append_nil, List.reverse_reverse]

/-- The value of the first property holds the beginning of a comment, so it is not clear of it, and
the second one is read within the comment. -/
theorem clear_properties_comment :
    let frame : Frame := ⟨.styleLocal, 1, [], 1⟩
    let f := frame.fragment false 1 "color: /* red; width: 9px; */;".toList ⟨6, 1, 7⟩ ⟨36, 1, 37⟩
    let l : Literal := ⟨13, "/* red".toList⟩
    f.context = .styleLocal ∧ f.classify.literals = [l, ⟨28, "9px".toList⟩] ∧
      ∃ p ∈ f.properties, p.literal = some l ∧ ¬ p.Clear .style f.cursor l := by
  intro frame f l
  have hliterals : f.classify.literals = [l, ⟨28, "9px".toList⟩] := by decide +kernel
  let value : Cursor := ⟨⟨13, 1, 14⟩, "/* red; width: 9px; */;".toList⟩
  let p : Property := ⟨f.cursor, ⟨⟨11, 1, 12⟩, ": /* red; width: 9px; */;".toList⟩,
    ⟨⟨11, 1, 12⟩, ": /* red; width: 9px; */;".toList⟩, ⟨⟨19, 1, 20⟩, "; width: 9px; */;".toList⟩,
    some l⟩
  have hp : p ∈ f.properties := by decide +kernel
  refine ⟨rfl, hliterals, p, hp, rfl, fun hclear => ?_⟩
  have hcode := ((clear_properties (.inr (.inl rfl))).2.1 p hp l rfl).1 hclear
  exact hcode.2 ⟨value, .blockComment, ⟨"color: ".toList, by decide, by decide⟩,
    ⟨'/', "* red".toList, by decide, by decide⟩, by decide, by decide⟩

end Fragment

end Polyglot
