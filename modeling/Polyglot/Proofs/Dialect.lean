-- SUMMARY: A local script has the literals of its statements, and their markers but for severed ones.
import Polyglot.Dialect
import Polyglot.Proofs.Excerpt
import Mathlib.Data.List.TakeWhile

/-!
# The dialect of a script and of its statements

A script is read item by item (`FeatureScan.scanFrom_eq`), and from a statement the
same items are read as from the whole script. So the literals of a script are those
of its statements. The markers are too, but for words at the end of a statement that
are markers only together with the text behind it (`FeatureScan.severed`).
-/

namespace Polyglot

open Cursor

namespace FeatureScan

/-! ## Items -/

/-- What the reading of a script takes as a whole. -/
inductive Item where
  | string
  | comment
  | space (ch : Char)
  | word
  | selector
  | arrow
  | char (ch : Char)
  deriving DecidableEq

/-- How an item changes the number of open braces. -/
def Item.change : Item → Int
  | .char ch => braceChange ch
  | _ => 0

/-- The item ahead, and the cursor behind it. -/
def item? (c : Cursor) : Option (Item × c.Later) :=
  match c.front .script with
  | .finish | .openRegion _ _ => none
  | .region .string after => some (.string, after)
  | .region _ after => some (.comment, after)
  | .code ch after =>
    if isAsciiSpace ch then some (.space ch, after)
    else if isNameStart ch then some (.word, after.eatWhile isNamePart)
    else match c.enhancedSelector? with
      | some past => some (.selector, past)
      | none =>
        if c.startsWith ['-', '>'] then some (.arrow, after.advance) else some (.char ch, after)

/-- Note an item between two cursors. -/
def State.read (s : State) (c d : Cursor) : Item → State
  | .string => s.inside
  | .comment => s
  | .space ch => { s with statementStart := s.statementStart || ch = '\n' }
  | .word => s.word c d
  | .selector => (s.mark (some .enhancedSelector)).inside
  | .arrow => (s.mark (some .arrow)).inside
  | .char ch => s.char ch

/-- A script is read item by item. -/
theorem scanFrom_eq (s : State) (c : Cursor) :
    scanFrom s c = match item? c with
      | none => s
      | some (item, d) => scanFrom (s.read c d.cursor item) d.cursor := by
  rw [scanFrom.eq_def]
  unfold item?
  cases c.front .script with
  | finish => rfl
  | openRegion issue atEnd => rfl
  | region kind after => cases kind <;> rfl
  | code ch after =>
    simp only
    split
    · rfl
    · split
      · rfl
      · cases c.enhancedSelector? with
        | some past => rfl
        | none =>
          simp only
          split
          · rfl
          · rfl

variable {c d e part : Cursor} {code : List Char} {item : Item}

/-- A word is code without braces. -/
theorem inline_word {ch : Char} {after : c.Later} (h : c.front .script = .code ch after)
    (hch : isNameStart ch) : Inline c (after.eatWhile isNamePart).cursor := by
  obtain ⟨name, hread, hname, hpasses⟩ := passes_eatWhile_isNamePart after.cursor
  have hword : ∀ x ∈ ch :: name, isNamePart x := by
    intro x hx
    rcases List.mem_cons.1 hx with rfl | hx
    · exact isNamePart_of_isNameStart hch
    · exact hname x hx
  refine ⟨ch :: name, Consumes.trans (u := [ch]) (front_code h) hread, .code h hpasses,
    braceDepth_of_isNamePart hword, fun x hx => ?_⟩
  exact isBreak_eq_false (isBreak_imp (by decide) (by decide)) (hword x hx)

theorem front_arrow {ch : Char} {after : c.Later} (h : c.front .script = .code ch after)
    (harrow : c.startsWith ['-', '>']) : ch = '-' ∧ ∃ t, after.cursor.rest = '>' :: t := by
  obtain ⟨t, ht⟩ := List.isPrefixOf_iff_prefix.1 harrow
  rw [(front_code h).1] at ht
  obtain ⟨hch, hrest⟩ : '-' = ch ∧ '>' :: t = after.cursor.rest := by simpa using ht
  exact ⟨hch.symm, t, hrest.symm⟩

theorem inline_arrow {ch : Char} {after : c.Later} (h : c.front .script = .code ch after)
    (harrow : c.startsWith ['-', '>']) : Inline c after.advance.cursor := by
  obtain ⟨rfl, t, hrest⟩ := front_arrow h harrow
  have hadvance : after.advance.cursor = ⟨after.cursor.position.advance '>', t⟩ := by
    change after.cursor.advance = _
    simp [advance, hrest]
  have hsecond : after.cursor.Consumes ['>'] after.advance.cursor := by
    rw [hadvance]
    exact ⟨hrest, rfl⟩
  have hplain : GuardSet.script.Plain '>' :=
    GuardSet.plain_of (by decide) (by decide) (.inr rfl)
  refine ⟨['-', '>'], Consumes.trans (u := ['-']) (front_code h) hsecond,
    .code h (hsecond.passes_of_plain ?_), by decide, by simp [isBreak]⟩
  intro ch hch
  rwa [List.mem_singleton.1 hch]

/-- Both readers have the same item ahead while there is text in the excerpt. -/
structure ItemAhead (c part e : Cursor) (code : List Char) (item : Item) (d : c.Later)
    (d' : part.Later) : Prop where
  whole : item? c = some (item, d)
  piece : item? part = some (item, d')
  more : ∃ u rest, code = u ++ rest ∧ braceDepth u = item.change ∧
    Excerpt d.cursor d'.cursor e rest

/-- A text without braces that both readers move over. -/
theorem Inline.excerpt (h : Excerpt c part e code) {x x' : Cursor} (hx : Inline c x)
    (hx' : part.Reaches x') (hagree : Agree e.rest x x') :
    ∃ u rest, code = u ++ rest ∧ braceDepth u = 0 ∧ Excerpt x x' e rest := by
  obtain ⟨u, -, hpasses, hzero, -⟩ := hx
  obtain ⟨rest, hsplit, hmore⟩ := h.move hpasses hx' hagree.rest
  exact ⟨u, rest, hsplit, hzero, hmore⟩

theorem exists_itemAhead (h : Excerpt c part e code) (hne : part.rest ≠ []) :
    ∃ item d d', ItemAhead c part e code item d d' := by
  have hagree := h.agree hne
  cases h.ahead hne with
  | @region kind after after' whole piece more =>
    cases kind with
    | string =>
      exact ⟨.string, after, after', by rw [item?, whole], by rw [item?, piece],
        [], code, rfl, rfl, more⟩
    | lineComment | blockComment | generatorComment =>
      exact ⟨.comment, after, after', by rw [item?, whole], by rw [item?, piece],
        [], code, rfl, rfl, more⟩
  | @code ch after after' rest whole piece split more =>
    have hafter : isBreak ch = false → Agree e.rest after.cursor after'.cursor := by
      intro hch
      have hscreens := hagree.screens
      rw [(front_code piece).1] at hscreens
      exact ⟨more.rest_eq, hscreens.tail hch⟩
    by_cases hspace : isAsciiSpace ch
    · have hzero : braceDepth [ch] = 0 := braceDepth_of_isUnicodeSpace
        (by simpa using isUnicodeSpace_of_isAsciiSpace hspace)
      exact ⟨.space ch, after, after', by simp [item?, whole, hspace],
        by simp [item?, piece, hspace], [ch], rest, split, hzero, more⟩
    by_cases hname : isNameStart ch
    · have hbreak : isBreak ch = false :=
        isBreak_eq_false (isBreak_imp (by decide) (by decide)) hname
      exact ⟨.word, after.eatWhile isNamePart, after'.eatWhile isNamePart,
        by simp [item?, whole, hspace, hname], by simp [item?, piece, hspace, hname],
        Inline.excerpt h (inline_word whole hname) (after'.eatWhile isNamePart).reaches
          ((hafter hbreak).eatWhile (isBreak_imp (by decide) (by decide)))⟩
    have hselector := enhancedSelector?_agree hagree
    cases hc : c.enhancedSelector? with
    | some past =>
      obtain ⟨past', hp, hpast, hinline⟩ := rel_some (hc ▸ hselector)
      exact ⟨.selector, past, past', by simp [item?, whole, hspace, hname, hc],
        by simp [item?, piece, hspace, hname, hp], Inline.excerpt h hinline past'.reaches hpast⟩
    | none =>
      have hp : part.enhancedSelector? = none := rel_none (hc ▸ hselector)
      have hsame : c.startsWith ['-', '>'] = part.startsWith ['-', '>'] :=
        hagree.startsWith (by simp [isBreak])
      by_cases harrow : c.startsWith ['-', '>']
      · obtain ⟨rfl, t, hrest⟩ := front_arrow piece (hsame ▸ harrow)
        have hadvance : Agree e.rest after.advance.cursor after'.advance.cursor :=
          (hafter (by decide)).advance hrest (by decide)
        exact ⟨.arrow, after.advance, after'.advance,
          by simp [item?, whole, hspace, hname, hc, harrow],
          by simp [item?, piece, hspace, hname, hp, hsame ▸ harrow],
          Inline.excerpt h (inline_arrow whole harrow) after'.advance.reaches hadvance⟩
      · have hzero : braceDepth [ch] = braceChange ch := by
          rw [braceDepth_cons, braceDepth_nil, Int.add_zero]
        exact ⟨.char ch, after, after', by simp [item?, whole, hspace, hname, hc, harrow],
          by simp [item?, piece, hspace, hname, hp, hsame ▸ harrow], [ch], rest, split, hzero, more⟩

theorem Inline.not_semicolon {u : List Char} (h : Inline c d) (hu : c.Consumes (u ++ [';']) d) :
    False := by
  obtain ⟨text, hread, -, -, hbreak⟩ := h
  have := hbreak ';' (by rw [hread.unique hu]; simp)
  exact absurd this (by decide)

/-- An item that ends in a semicolon is that semicolon, or a comment at the end of a line. -/
theorem item?_semicolon {u : List Char} {d : c.Later} (h : item? c = some (item, d))
    (hu : c.Consumes (u ++ [';']) d.cursor) : item = .char ';' ∨ AtLineEnd d.cursor.rest := by
  have hregion : ∀ {kind}, c.front .script = .region kind d → AtLineEnd d.cursor.rest := by
    intro kind hfront
    obtain ⟨t, hregion, ht, hline⟩ := front_eq_region hfront
    by_cases hkind : kind.isLine
    · exact hline hkind
    · rw [ht.unique hu] at hregion
      exact absurd (hregion.last (List.Subset.refl _) hkind) (by decide)
  have hcode : ∀ {ch}, c.front .script = .code ch d → ch = ';' := by
    intro ch hfront
    have hsame : [] ++ [ch] = u ++ [';'] := Consumes.unique (front_code hfront) hu
    exact List.singleton_inj.1 (List.append_inj_right' hsame rfl)
  unfold item? at h
  cases hfront : c.front .script with
  | finish => simp [hfront] at h
  | openRegion issue atEnd => simp [hfront] at h
  | region kind after =>
    obtain rfl : after = d := by
      rw [hfront] at h
      cases kind <;> exact (Prod.mk.inj (Option.some.inj h)).2
    exact .inr (hregion hfront)
  | code ch after =>
    rw [hfront] at h
    simp only at h
    split at h
    · next hspace =>
      cases h
      rw [hcode hfront] at hspace
      exact absurd hspace (by decide)
    · split at h
      · next hname =>
        cases h
        exact (Inline.not_semicolon (inline_word hfront hname) hu).elim
      · split at h
        · next past hc =>
          cases h
          exact (Inline.not_semicolon (inline_enhancedSelector? hc) hu).elim
        · split at h
          · next harrow =>
            cases h
            exact (Inline.not_semicolon (inline_arrow hfront harrow) hu).elim
          · cases h
            rw [hcode hfront]
            exact .inl rfl

/-! ## Looking ahead -/

/-- The marker that a word makes with what stands behind it. -/
def State.marker? (s : State) (word : List Char) (d : Cursor) : Option Marker :=
  let call := if d.callFollows then Marker.ofCall? (String.ofList word) else none
  if call.isSome then call
  else if String.ofList word = "vir" && s.statementStart && d.bindingFollows then
    some .virtualObject
  else none

/-- A word in the place of a value, if it makes no marker. -/
def State.literal? (s : State) (offset : Nat) (word : List Char) (d : Cursor) : Option Literal :=
  if (s.marker? word d).isNone && s.afterColon && 0 < s.depth && d.valueEnds then
    some ⟨offset, word⟩
  else none

/-- Note a literal, if there is one. -/
def State.note (s : State) (l : Option Literal) : State :=
  { s with literals := l.toList ++ s.literals }

theorem word_eq (s : State) (c d : Cursor) :
    s.word c d =
      ((s.mark (s.marker? (c.textTo d) d)).note
        (s.literal? c.offset (c.textTo d) d)).inside := by
  unfold State.word State.literal?
  have hmarker : s.marker? (c.textTo d) d =
      if (if d.callFollows then Marker.ofCall? (String.ofList (c.textTo d)) else none).isSome then
        if d.callFollows then Marker.ofCall? (String.ofList (c.textTo d)) else none
      else if String.ofList (c.textTo d) = "vir" && s.statementStart && d.bindingFollows then
        some .virtualObject
      else none := rfl
  simp only
  generalize (if d.callFollows then Marker.ofCall? (String.ofList (c.textTo d)) else none) = call
    at hmarker ⊢
  rw [hmarker]
  cases call with
  | some m => rfl
  | none =>
    simp only [Option.isSome_none, Bool.false_eq_true, if_false]
    split
    · rfl
    · simp only [Option.isNone_none, Bool.true_and]
      split
      · rfl
      · rfl

theorem rest_eatWhile (p : Char → Bool) (pos : Position) (x : List Char) :
    (eatWhile p ⟨pos, x⟩).rest = x.dropWhile p := by
  rw [eatWhile, eatWhileFrom_eq]

theorem head?_dropWhile_append {p : Char → Bool} {x : List Char} (y : List Char)
    (h : x.all p = false) : ((x ++ y).dropWhile p).head? = (x.dropWhile p).head? := by
  induction x with
  | nil => cases h
  | cons ch x ih =>
    by_cases hch : p ch
    · simpa [hch] using ih (by simpa [hch] using h)
    · simp [hch]

section Ahead

variable {pos : Position} {x : List Char} (y : List Char)

/-- What is not blank screens all that stands behind it. -/
theorem callFollows_append (h : x.all isBlank = false) :
    callFollows ⟨pos, x ++ y⟩ = callFollows ⟨pos, x⟩ := by
  simp only [callFollows, skipBlank, rest_eatWhile, head?_dropWhile_append y h]

theorem bindingFollows_append (h : x.all isBlank = false) :
    bindingFollows ⟨pos, x ++ y⟩ = bindingFollows ⟨pos, x⟩ := by
  simp only [bindingFollows, skipBlank, rest_eatWhile, head?_dropWhile_append y h]
  cases x with
  | nil => cases h
  | cons ch x => rfl

theorem valueEnds_append (h : x.all isBlank = false) :
    valueEnds ⟨pos, x ++ y⟩ = valueEnds ⟨pos, x⟩ := by
  have hhorizontal : x.all isHorizontalBlank = false := by
    rw [List.all_eq_false] at h ⊢
    obtain ⟨ch, hmem, hch⟩ := h
    exact ⟨ch, hmem, fun hblank => hch (by simp [isBlank, hblank])⟩
  simp only [valueEnds, skipHorizontal, rest_eatWhile, head?_dropWhile_append y hhorizontal]

theorem marker?_append {s : State} {word : List Char} (h : x.all isBlank = false) :
    s.marker? word ⟨pos, x ++ y⟩ = s.marker? word ⟨pos, x⟩ := by
  simp only [State.marker?, callFollows_append y h, bindingFollows_append y h]

/-- At the end of a text no word is a marker. -/
theorem marker?_blank {s : State} {word : List Char} (h : x.all isBlank) :
    s.marker? word ⟨pos, x⟩ = none := by
  have hnil : x.dropWhile isBlank = [] := List.dropWhile_eq_nil_iff.2 (by simpa using h)
  simp [State.marker?, callFollows, bindingFollows, skipBlank, rest_eatWhile, hnil]

end Ahead

/-! ## Severed markers -/

/-- The marker that a word at the end of a text makes only together with `y` behind it. -/
def State.severed? (y : List Char) (s : State) (c d : Cursor) : Item → Option Marker
  | .word => if d.rest.all isBlank then s.marker? (c.textTo d) ⟨d.position, d.rest ++ y⟩ else none
  | _ => none

/-- The markers that words at the end of a text make only together with `y` behind it. -/
def severed (y : List Char) (s : State) (c : Cursor) : List Marker :=
  match item? c with
  | none => []
  | some (item, d) =>
    (s.severed? y c d.cursor item).toList ++ severed y (s.read c d.cursor item) d.cursor
termination_by c.rest.length
decreasing_by exact d.length_lt

/-! ## Two readings in step -/

/-- A script is read up to the stop in front of `r` with what is known of it before, and an
excerpt from it with nothing. `L` and `X` are the literals and the markers known before. -/
structure Parallel (r : List Char) (L : List Literal) (X : Marker → Prop) (part : Cursor)
    (s q : State) : Prop where
  depth : s.depth = q.depth
  literals : s.literals = q.literals ++ L
  features : ∀ m, s.features.has m ↔ q.features.has m ∨ X m
  colon : s.depth = 0 ∨ s.afterColon = q.afterColon
  start : part.rest.head? = some '\n' ∨ s.statementStart = q.statementStart
  stop : part.rest = [] → s.statementStart ∨ AtLineEnd r

variable {L : List Literal} {X : Marker → Prop} {s q : State} {r : List Char}

theorem mark_features (s : State) (a : Option Marker) (m : Marker) :
    (s.mark a).features.has m ↔ s.features.has m ∨ a = some m := by
  cases a with
  | none => simp [State.mark]
  | some n =>
    simp only [State.mark, Features.has_insert, Bool.or_eq_true, decide_eq_true_eq,
      Option.some.injEq]
    exact ⟨fun h => h.symm.imp id Eq.symm, fun h => h.symm.imp Eq.symm id⟩

theorem mark_frame (s : State) (a : Option Marker) :
    (s.mark a).literals = s.literals ∧ (s.mark a).depth = s.depth := by
  cases a <;> exact ⟨rfl, rfl⟩

/-- Both readers mark a marker, or only one of them if it was known before. -/
theorem Parallel.mark {d' : Cursor} {a b : Option Marker} {l : Option Literal} {Y : Marker → Prop}
    (h : Parallel r L X part s q) (hmarker : ∀ m, a = some m ↔ b = some m ∨ Y m)
    (hstop : d'.rest = [] → AtLineEnd r) :
    Parallel r L (fun m => X m ∨ Y m) d' ((s.mark a).note l).inside
      ((q.mark b).note l).inside := by
  obtain ⟨hliterals, hdepth⟩ := mark_frame s a
  obtain ⟨hliterals', hdepth'⟩ := mark_frame q b
  refine ⟨?_, ?_, fun m => ?_, .inr rfl, .inr rfl, fun hnil => .inr (hstop hnil)⟩
  · simp only [State.inside, State.note, hdepth, hdepth', h.depth]
  · simp only [State.inside, State.note, hliterals, hliterals', h.literals, List.append_assoc]
  · have hs := mark_features s a m
    have hq := mark_features q b m
    simp only [State.inside, State.note] at hs hq ⊢
    rw [hs, hq, h.features, hmarker]
    exact or_or_or_comm

/-- A line feed is an item of its own. -/
theorem item?_newline {d : c.Later} (h : c.rest.head? = some '\n')
    (hitem : item? c = some (item, d)) : item = .space '\n' := by
  obtain ⟨pos, text⟩ := c
  cases text with
  | nil => cases h
  | cons ch text =>
    obtain rfl : ch = '\n' := by simpa using h
    have hplain : GuardSet.script.Plain '\n' :=
      GuardSet.plain_of (by decide) (by decide) (.inr rfl)
    obtain ⟨after, hfront, -⟩ := front_eq_code (hplain text) pos
    have hspace : isAsciiSpace '\n' = true := by decide
    simp only [item?, hfront, hspace, if_true, Option.some.injEq, Prod.mk.injEq] at hitem
    exact hitem.1.symm

theorem marker?_congr (h : s.statementStart = q.statementStart) (word : List Char) (d : Cursor) :
    s.marker? word d = q.marker? word d := by
  simp only [State.marker?, h]

/-- A word at the end of an excerpt stands outside all braces. -/
theorem depth_eq_zero (h : Excerpt c part e code) (hsettled : (s.depth : Int) + braceDepth code = 0)
    (hblank : part.rest.all isBlank) : s.depth = 0 := by
  have hzero : braceDepth code = 0 := by
    apply braceDepth_of_isUnicodeSpace
    intro ch hch
    have := List.all_eq_true.1 hblank ch (h.passes.mem_of_mem h.read hch)
    exact isUnicodeSpace_of_isAsciiSpace (by simp [isAsciiSpace, this])
  omega

/-- Where an excerpt ends, a line ends or the last item was a semicolon. -/
theorem ItemAhead.stop (h : Excerpt c part e code) (hne : part.rest ≠ []) {d : c.Later}
    {d' : part.Later} (hitem : ItemAhead c part e code item d d') (hnil : d'.cursor.rest = []) :
    item = .char ';' ∨ AtLineEnd e.rest := by
  obtain ⟨u, rest, -, -, hmore⟩ := hitem.more
  rcases h.stop hne with hend | hline | ⟨t, ht⟩
  · exact .inr (by simp [AtLineEnd, hend])
  · exact .inr (by simp [AtLineEnd, hline])
  · rw [← hmore.eq_of_nil hnil] at ht
    have := item?_semicolon hitem.whole ht
    rwa [hmore.eq_of_nil hnil] at this

/-- A word with text behind it in the excerpt makes the same marker and the same literal for
both readers. -/
theorem word_ahead (h : Parallel r L X part s q) (hstart : s.statementStart = q.statementStart)
    (offset : Nat) (text : List Char) {x : Cursor} (hblank : x.rest.all isBlank = false) :
    s.marker? text ⟨x.position, x.rest ++ r⟩ = q.marker? text x ∧
      s.literal? offset text ⟨x.position, x.rest ++ r⟩ = q.literal? offset text x := by
  have hmarker : s.marker? text ⟨x.position, x.rest ++ r⟩ = q.marker? text x := by
    rw [marker?_congr hstart]
    exact marker?_append r hblank
  have hvalue : valueEnds ⟨x.position, x.rest ++ r⟩ = valueEnds x := valueEnds_append r hblank
  refine ⟨hmarker, ?_⟩
  unfold State.literal?
  rw [hmarker, hvalue, ← h.depth]
  rcases h.colon with hzero | hcolon
  · simp [hzero]
  · rw [hcolon]

/-- A word at the end of the excerpt stands outside all braces. It makes no literal, and a
marker only for the reader of the whole script. -/
theorem word_last (h : Parallel r L X part s q) (hdepth : s.depth = 0) (offset : Nat)
    (text : List Char) {x : Cursor} (y : Cursor) (hblank : x.rest.all isBlank) :
    s.literal? offset text y = none ∧ q.literal? offset text x = none ∧
      q.marker? text x = none := by
  refine ⟨?_, ?_, marker?_blank hblank⟩
  · simp [State.literal?, hdepth]
  · simp [State.literal?, ← h.depth, hdepth]

theorem Parallel.read (h : Parallel e.rest L X part s q) (hexcerpt : Excerpt c part e code)
    (hne : part.rest ≠ []) {d : c.Later} {d' : part.Later}
    (hitem : ItemAhead c part e code item d d') (hsettled : (s.depth : Int) + braceDepth code = 0) :
    Parallel e.rest L (fun m => X m ∨ q.severed? e.rest part d'.cursor item = some m) d'.cursor
      (s.read c d.cursor item) (q.read part d'.cursor item) := by
  have hstop := hitem.stop hexcerpt hne
  have hline : item ≠ .char ';' → d'.cursor.rest = [] → AtLineEnd e.rest :=
    fun hitem hnil => (hstop hnil).resolve_left hitem
  obtain ⟨u, rest, rfl, hchange, hmore⟩ := hitem.more
  -- only a line feed is read without knowing whether a statement starts
  have hsame : item ≠ .space '\n' → s.statementStart = q.statementStart := fun hne =>
    h.start.resolve_left fun hline => hne (item?_newline hline hitem.piece)
  have hwithout : ∀ m, s.features.has m ↔ q.features.has m ∨ X m ∨ none = some m := by
    simpa using h.features
  cases item with
  | string =>
    exact ⟨h.depth, h.literals, hwithout, .inr rfl, .inr rfl,
      fun hnil => .inr (hline (by simp) hnil)⟩
  | comment =>
    exact ⟨h.depth, h.literals, hwithout, h.colon, .inr (hsame (by simp)),
      fun hnil => .inr (hline (by simp) hnil)⟩
  | space ch =>
    refine ⟨h.depth, h.literals, hwithout, h.colon, .inr ?_,
      fun hnil => .inr (hline (by simp) hnil)⟩
    by_cases hch : ch = '\n'
    · simp [State.read, hch]
    · simp [State.read, hch, hsame (by simpa using hch)]
  | char ch =>
    refine ⟨?_, h.literals, hwithout, .inr rfl, .inr rfl, fun hnil => ?_⟩
    · simp [State.read, State.char, h.depth]
    · rcases hstop hnil with hch | hend
      · cases hch
        exact .inl rfl
      · exact .inr hend
  | selector =>
    exact h.mark (a := some .enhancedSelector) (b := some .enhancedSelector) (l := none)
      (by simp [State.severed?]) (hline (by simp))
  | arrow =>
    exact h.mark (a := some .arrow) (b := some .arrow) (l := none)
      (by simp [State.severed?]) (hline (by simp))
  | word =>
    obtain ⟨text, htext⟩ := d.reaches
    have htext' := hexcerpt.consumes hmore htext
    have hstart := hsame (by simp)
    simp only [State.read, word_eq, htext.textTo_eq, htext'.textTo_eq, State.severed?]
    have hoffset : c.offset = part.offset := congrArg Position.offset hexcerpt.position.symm
    rw [hmore.eq_mk, hoffset]
    cases hblank : d'.cursor.rest.all isBlank with
    | true =>
      have hdepth : s.depth = 0 := by
        have hu : braceDepth u = 0 := hchange
        rw [braceDepth_append, hu, Int.zero_add] at hsettled
        exact depth_eq_zero hmore hsettled hblank
      obtain ⟨hwhole, hpiece, hnone⟩ := word_last h hdepth part.offset text
        ⟨d'.cursor.position, d'.cursor.rest ++ e.rest⟩ hblank
      rw [hwhole, hpiece]
      refine h.mark (fun m => ?_) (hline (by simp))
      rw [hnone, marker?_congr hstart]
      simp
    | false =>
      obtain ⟨hmarker, hliteral⟩ := word_ahead h hstart part.offset text hblank
      rw [hliteral, hmarker]
      exact h.mark (by simp) (hline (by simp))

/-- Where braces are not closed too often, the depth counts them. -/
theorem depth_read {s : State} {c d : Cursor} {item : Item}
    (h : 0 ≤ (s.depth : Int) + item.change) :
    ((s.read c d item).depth : Int) = s.depth + item.change := by
  cases item with
  | char ch =>
    simp only [State.read, State.char, Item.change, braceChange] at h ⊢
    split
    · push_cast
      rfl
    · split
      · next hclose =>
        simp only [hclose, if_true] at h
        have hne : ('}' : Char) ≠ '{' := by decide
        simp only [hne, if_false] at h
        omega
      · simp
  | word =>
    rw [State.read, word_eq]
    simp [State.inside, State.note, mark_frame, Item.change]
  | string | comment | space | selector | arrow =>
    simp [State.read, State.inside, State.mark, Item.change]

theorem item?_eq_none (h : c.rest = []) : item? c = none := by
  rw [item?, front_eq_finish_iff.2 h]

/-- An excerpt has the literals that the whole script has up to the stop, and its markers
but for the severed ones. -/
theorem scanFrom_excerpt (h : Excerpt c part e code) (hstep : Parallel e.rest L X part s q)
    (hsane : ∀ p, p <+: code → 0 ≤ (s.depth : Int) + braceDepth p)
    (hsettled : (s.depth : Int) + braceDepth code = 0) :
    ∃ s', scanFrom s c = scanFrom s' e ∧ s'.depth = 0 ∧ (s'.statementStart ∨ AtLineEnd e.rest) ∧
      s'.literals = (scanFrom q part).literals ++ L ∧
      ∀ m, s'.features.has m ↔
        (scanFrom q part).features.has m ∨ X m ∨ m ∈ severed e.rest q part := by
  induction hn : part.rest.length using Nat.strong_induction_on
    generalizing c part code s q X with
  | _ n ih =>
    by_cases hne : part.rest = []
    · have hnone := item?_eq_none hne
      have hdepth : s.depth = 0 := depth_eq_zero h hsettled (by simp [hne])
      rw [h.eq_of_nil hne, scanFrom_eq q, severed, hnone]
      refine ⟨s, rfl, hdepth, hstep.stop hne, hstep.literals, fun m => ?_⟩
      simpa using hstep.features m
    · obtain ⟨item, d, d', hitem⟩ := exists_itemAhead h hne
      have hread := hstep.read h hne hitem hsettled
      obtain ⟨u, rest, rfl, hchange, hmore⟩ := hitem.more
      have hdepth : ((s.read c d.cursor item).depth : Int) = s.depth + item.change := by
        apply depth_read
        rw [← hchange]
        exact hsane u (List.prefix_append u rest)
      have hlength : d'.cursor.rest.length < n := hn ▸ d'.length_lt
      obtain ⟨s', hscan, hzero, hstart, hliterals, hfeatures⟩ := ih _ hlength hmore hread
        (fun p hp => by
          have := hsane (u ++ p) ((List.prefix_append_right_inj u).2 hp)
          rw [braceDepth_append] at this
          omega)
        (by
          rw [braceDepth_append] at hsettled
          omega) rfl
      rw [scanFrom_eq s, scanFrom_eq q, severed, hitem.whole, hitem.piece]
      refine ⟨s', hscan, hzero, hstart, hliterals, fun m => ?_⟩
      rw [hfeatures m, List.mem_append, Option.mem_toList, or_assoc]

/-! ## Statement by statement -/

/-- Nothing was read. -/
def State.initial : State := ⟨.none, [], 0, true, false⟩

/-- The markers that words at the ends of statements make only together with the statements
behind them. -/
def severedAll : List Fragment → List Marker
  | [] => []
  | f :: fs =>
    severed (fs.map Fragment.content).flatten .initial f.cursor ++ severedAll fs

/-- From a cut on, the statements are read one after the other. -/
theorem scanFrom_tiles {c₀ : Cursor} {total : List Char} {fs : List Fragment}
    (hread : c₀.Passes .script total e) (hmatch : BracesMatch total) (hend : e.rest = [])
    (h : Fragment.Tiles c₀.IsCut c fs e) (hc : c = c₀ ∨ c₀.IsCut c) (hdepth : s.depth = 0)
    (hstart : s.statementStart ∨ AtLineEnd c.rest) :
    (scanFrom s c).literals.reverse =
        s.literals.reverse ++ fs.flatMap (fun f => (ofCursor f.cursor).literals) ∧
      ∀ m, (scanFrom s c).features.has m ↔
        s.features.has m ∨ (∃ f ∈ fs, (ofCursor f.cursor).features.has m) ∨ m ∈ severedAll fs := by
  induction fs generalizing c s with
  | nil =>
    cases h
    rw [scanFrom_eq, item?_eq_none hend]
    simp [severedAll]
  | cons f fs ih =>
    cases h with
    | @cons _ d _ _ _ covers cut more =>
      obtain ⟨part, hexcerpt, hbraces⟩ :=
        covers.excerpt hread hmatch hc cut ⟨_, more.consumes⟩
      have hbehind : d.rest = (fs.map Fragment.content).flatten := by
        have := more.consumes.1
        rwa [hend, List.append_nil] at this
      have hparallel :
          Parallel d.rest s.literals (fun m => s.features.has m) f.cursor s .initial := by
        refine ⟨hdepth, rfl, fun m => by simp [State.initial], .inl hdepth, ?_,
          fun hnil => absurd hnil covers.text⟩
        rcases hstart with hstart | hline
        · exact .inr hstart
        · left
          obtain ⟨ch, text, htext⟩ := List.exists_cons_of_ne_nil covers.text
          rw [covers.read.1, htext] at hline
          simpa [Fragment.cursor, htext, AtLineEnd] using hline
      obtain ⟨s', hscan, hzero, hstart', hliterals, hfeatures⟩ :=
        scanFrom_excerpt hexcerpt hparallel (by simpa [hdepth] using hbraces.sane)
          (by simpa [hdepth] using hbraces.settled)
      obtain ⟨hliterals', hfeatures'⟩ := ih more (.inr cut) hzero hstart'
      have hfirst : ofCursor f.cursor =
          ⟨(scanFrom .initial f.cursor).features,
            (scanFrom .initial f.cursor).literals.reverse⟩ := rfl
      rw [hscan]
      constructor
      · rw [hliterals', hliterals, List.flatMap_cons, hfirst, List.reverse_append,
          List.append_assoc]
      · intro m
        rw [hfeatures', hfeatures, hbehind]
        simp only [severedAll, List.mem_append, List.mem_cons, exists_eq_or_imp, hfirst]
        grind

/-- A script has the literals of its statements, and their markers and the severed ones. -/
theorem ofCursor_tiles {fs : List Fragment} (hread : c.Passes .script code e)
    (hmatch : BracesMatch code) (hend : e.rest = []) (h : Fragment.Tiles c.IsCut c fs e) :
    (ofCursor c).literals = fs.flatMap (fun f => (ofCursor f.cursor).literals) ∧
      ∀ m, (ofCursor c).features.has m ↔
        (∃ f ∈ fs, (ofCursor f.cursor).features.has m) ∨ m ∈ severedAll fs := by
  obtain ⟨hliterals, hfeatures⟩ :=
    scanFrom_tiles (s := .initial) hread hmatch hend h (.inl rfl) rfl (.inl rfl)
  refine ⟨hliterals, fun m => (hfeatures m).trans ?_⟩
  simp [State.initial]

end FeatureScan

end Polyglot
