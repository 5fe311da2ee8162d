-- SUMMARY: A script is marked for a call exactly if no name reaches up to the word that is called.
import Polyglot.Proofs.Cut
import Polyglot.Proofs.Presence

/-!
# Calls

A scan reads names as a whole, from a letter on. So it finds the called word where no name
stands in front of it that goes on with the word (`FeatureScan.has_scanFrom_call`). What stands
in front of it may be a number, and it may be a letter beyond ASCII, which is part of no name
here. A script is marked for these calls too, although the word is the end of something longer,
and for no others (`FeatureScan.has_call_iff`).
-/

namespace Polyglot

open Cursor

/-! ## Texts around a call -/

/-- The text begins with a call: the word, blanks and an opening parenthesis. -/
def Calls (word : String) (text : List Char) : Prop :=
  ∃ gap rest, text = word.toList ++ (gap ++ '(' :: rest) ∧ ∀ ch ∈ gap, isBlank ch

/-- The text ends in a name. -/
def EndsInName (text : List Char) : Prop :=
  ∃ before ch name, text = before ++ ch :: name ∧ isNameStart ch ∧ ∀ x ∈ name, isNamePart x

/-- The word is a name. -/
def IsName (word : String) : Prop :=
  ∃ ch name, word.toList = ch :: name ∧ isNameStart ch ∧ ∀ x ∈ name, isNamePart x

theorem isName_of_ofCall? {word : String} {m : Marker} (h : Marker.ofCall? word = some m) :
    IsName word := by
  unfold Marker.ofCall? at h
  split at h
  · exact ⟨'l', "isten".toList, rfl, rfl, List.all_eq_true.1 rfl⟩
  · exact ⟨'d', "elegate".toList, rfl, rfl, List.all_eq_true.1 rfl⟩
  · exact ⟨'a', "nimate".toList, rfl, rfl, List.all_eq_true.1 rfl⟩
  · cases h

/-- Each call has a marker of its own. -/
theorem ofCall?_injective {word word' : String} {m : Marker} (h : Marker.ofCall? word = some m)
    (h' : Marker.ofCall? word' = some m) : word' = word := by
  unfold Marker.ofCall? at h h'
  split at h <;> cases h <;> split at h' <;> first | rfl | cases h'

variable {u v text : List Char} {word : String} {m : Marker}

theorem not_endsInName_nil : ¬ EndsInName [] := by
  rintro ⟨before, ch, name, h, -⟩
  simp at h

/-- A name ends with a part of a name. -/
theorem EndsInName.last {x : Char} (h : EndsInName (u ++ [x])) : isNamePart x := by
  obtain ⟨before, ch, name, htext, hch, hname⟩ := h
  rcases List.eq_nil_or_concat name with rfl | ⟨name, y, rfl⟩
  · obtain rfl : x = ch := by simpa using List.append_inj_right' htext rfl
    exact isNamePart_of_isNameStart hch
  · have hsame : u ++ [x] = (before ++ ch :: name) ++ [y] := by simpa using htext
    obtain rfl : x = y := by simpa using List.append_inj_right' hsame rfl
    exact hname x (by simp)

/-- A name that ends in the second text begins in it or in the first. -/
theorem endsInName_append :
    EndsInName (v ++ u) ↔ EndsInName u ∨ EndsInName v ∧ ∀ x ∈ u, isNamePart x := by
  constructor
  · rintro ⟨before, ch, name, htext, hch, hname⟩
    rcases List.append_eq_append_iff.1 htext with ⟨w, rfl, hu⟩ | ⟨w, hv, hname'⟩
    · exact .inl ⟨w, ch, name, hu, hch, hname⟩
    · cases w with
      | nil => exact .inl ⟨[], ch, name, hname'.symm, hch, hname⟩
      | cons x w =>
        obtain ⟨rfl, rfl⟩ := List.cons.inj hname'
        exact .inr ⟨⟨before, ch, w, hv, hch, fun x hx => hname x (List.mem_append_left u hx)⟩,
          fun x hx => hname x (List.mem_append_right w hx)⟩
  · rintro (⟨before, ch, name, rfl, hch, hname⟩ | ⟨⟨before, ch, name, rfl, hch, hname⟩, hu⟩)
    · exact ⟨v ++ before, ch, name, by simp, hch, hname⟩
    · exact ⟨before, ch, name ++ u, by simp, hch, List.forall_mem_append.2 ⟨hname, hu⟩⟩

/-- A call begins with the first letter of its word. -/
theorem Calls.head (h : Calls word text) (hword : IsName word) :
    ∃ ch rest, text = ch :: rest ∧ isNameStart ch := by
  obtain ⟨gap, rest, rfl, -⟩ := h
  obtain ⟨ch, name, hword, hch, -⟩ := hword
  exact ⟨ch, _, by rw [hword, List.cons_append], hch⟩

/-- No part of a name follows the word. -/
theorem not_isNamePart_gap {gap rest : List Char} (hgap : ∀ ch ∈ gap, isBlank ch) :
    (gap ++ '(' :: rest).head?.any isNamePart = false := by
  cases gap with
  | nil => rfl
  | cons ch gap =>
    cases hname : isNamePart ch with
    | false => simpa using hname
    | true =>
      have hblank := isBlank_of_isNamePart hname
      rw [hgap ch List.mem_cons_self] at hblank
      cases hblank

theorem callFollows_iff {c : Cursor} :
    c.callFollows ↔ ∃ gap rest, c.rest = gap ++ '(' :: rest ∧ ∀ ch ∈ gap, isBlank ch := by
  have hread := c.consumes_eatWhile isBlank
  rw [callFollows, skipBlank, decide_eq_true_iff]
  constructor
  · intro h
    obtain ⟨rest, hrest⟩ := List.head?_eq_some_iff.1 h
    exact ⟨_, rest, by rw [← hrest]; exact hread.1, fun ch hch =>
      List.all_eq_true.1 List.all_takeWhile ch hch⟩
  · rintro ⟨gap, rest, hrest, hgap⟩
    rw [rest_eatWhile_append hgap rfl hrest]
    rfl

namespace FeatureScan

open Selector

variable {c d e : Cursor} {item : Item}

/-- No call begins in a selector: there is no parenthesis in it, and it ends in a brace. -/
theorem not_calls_of_selector {w : List Char} (hw : w ∈ selector) (hsplit : w = u ++ v)
    (hne : v ≠ []) (hword : IsName word) (rest : List Char) : ¬ Calls word (v ++ rest) := by
  rintro ⟨gap, behind, htext, hgap⟩
  have hover := over_selector w hw
  obtain ⟨ch, name, hname, hch, hparts⟩ := hword
  have hbrace : '}' ∈ v := by
    obtain ⟨_, -, _, rfl, hend⟩ := hw
    rcases List.eq_nil_or_concat v with rfl | ⟨v, x, rfl⟩
    · exact absurd rfl hne
    · have hlast := congrArg List.getLast? (hend.trans hsplit)
      obtain rfl : '}' = x := by simpa [List.concat_eq_append] using hlast
      simp
  have hparen : '(' ∉ v := fun hmem => by
    have := hover '(' (by rw [hsplit]; simp [hmem])
    exact absurd this (by decide)
  have hclosed : ∀ x ∈ word.toList ++ gap, x ≠ '}' := by
    rintro x hx rfl
    rw [hname] at hx
    simp only [List.cons_append, List.mem_cons, List.mem_append] at hx
    rcases hx with rfl | hx | hx
    · exact absurd hch (by decide)
    · exact absurd (hparts _ hx) (by decide)
    · exact absurd (hgap _ hx) (by decide)
  have hwhole : v ++ rest = (word.toList ++ gap) ++ '(' :: behind := by simpa using htext
  rcases List.append_eq_append_iff.1 hwhole with ⟨x, hx, -⟩ | ⟨x, hx, hmore⟩
  · exact hclosed '}' (by rw [hx]; exact List.mem_append_left x hbrace) rfl
  · cases x with
    | nil => exact hclosed '}' (by simpa [hx] using hbrace) rfl
    | cons y x =>
      obtain ⟨rfl, -⟩ := List.cons.inj hmore
      exact hparen (by rw [hx]; simp)

/-! ## Item by item -/

theorem isAsciiSpace_of_isNamePart {ch : Char} (h : isNamePart ch) : isAsciiSpace ch = false := by
  have hfeed : ch ≠ '\x0c' := by
    rintro rfl
    exact absurd h (by decide)
  simp [isAsciiSpace, isBlank_of_isNamePart h, hfeed]

theorem not_isNameStart_of_char {ch : Char} {d : c.Later} (h : item? c = some (.char ch, d)) :
    isNameStart ch = false := by
  cases takes_of_item? h with
  | char ahead =>
    cases hname : isNameStart ch with
    | false => rfl
    | true =>
      have hspace := isAsciiSpace_of_isNamePart (isNamePart_of_isNameStart hname)
      simp [item?, ahead, hspace, hname] at h

theorem not_endsInName_of_last {x : Char} (hv : v.getLast? = some x)
    (hx : isNamePart x = false) : ¬ EndsInName v := by
  obtain ⟨w, rfl⟩ := List.getLast?_eq_some_iff.1 hv
  intro h
  rw [h.last] at hx
  cases hx

theorem not_endsInName_singleton {ch : Char} (h : isNameStart ch = false) :
    ¬ EndsInName [ch] := by
  rintro ⟨before, x, name, hsplit, hx, -⟩
  have hmem : x ∈ [ch] := by simp [hsplit]
  rw [List.mem_singleton.1 hmem, h] at hx
  cases hx

/-- Where a name goes on behind an item, the item does not end in a name. -/
theorem not_endsInName_item {d : c.Later} (h : item? c = some (item, d))
    (hv : c.Consumes v d.cursor) (hnext : d.cursor.rest.head?.any isNamePart) :
    ¬ EndsInName v := by
  have hregion : ∀ {kind} {after : c.Later}, c.front .script = .region kind after →
      after.cursor.rest.head?.any isNamePart → c.Consumes v after.cursor → ¬ EndsInName v := by
    intro kind after ahead hnext hv
    obtain ⟨w, hregion, hw, hline⟩ := front_eq_region ahead
    obtain rfl : w = v := hw.unique hv
    rcases List.eq_nil_or_concat w with rfl | ⟨w, x, rfl⟩
    · exact not_endsInName_nil
    · rw [List.concat_eq_append] at hregion ⊢
      have hkind : ¬ kind.isLine := fun hkind => by
        have hend := hline hkind
        cases hrest : after.cursor.rest with
        | nil => simp [hrest] at hnext
        | cons y rest =>
          obtain rfl : y = '\n' := by simpa [AtLineEnd, hrest] using hend
          simp [hrest, isNamePart] at hnext
      have hlast := hregion.last (List.Subset.refl _) hkind
      have hx : isNamePart x = false := by
        simp only [GuardSet.script, List.mem_cons, List.not_mem_nil, or_false] at hlast
        rcases hlast with rfl | rfl | rfl | rfl <;> decide
      exact not_endsInName_of_last (by simp) hx
  cases takes_of_item? h with
  | string ahead => exact hregion ahead hnext hv
  | comment ahead => exact hregion ahead hnext hv
  | @space ch _ ahead space =>
    obtain rfl : v = [ch] := hv.unique (front_code ahead)
    refine not_endsInName_singleton ?_
    cases hch : isNameStart ch with
    | false => rfl
    | true => simp [isAsciiSpace_of_isNamePart (isNamePart_of_isNameStart hch)] at space
  | @word ch after ahead start =>
    exfalso
    have hstop : (after.eatWhile isNamePart).cursor.rest = after.cursor.rest.dropWhile isNamePart :=
      rest_eatWhile isNamePart after.cursor.position after.cursor.rest
    have hhead := List.head?_dropWhile_not isNamePart after.cursor.rest
    rw [hstop] at hnext
    cases hrest : (after.cursor.rest.dropWhile isNamePart).head? with
    | none => simp [hrest] at hnext
    | some x => simp_all
  | selector ahead found =>
    obtain ⟨w, hw, hread⟩ := reads_enhancedSelector? found
    obtain rfl : w = v := hread.unique hv
    obtain ⟨_, -, _, rfl, rfl⟩ := hw
    exact not_endsInName_of_last (x := '}') (by simp) (by decide)
  | arrow ahead found =>
    obtain rfl : v = ['-', '>'] := hv.unique (consumes_arrow ahead found)
    exact not_endsInName_of_last (x := '>') (by simp) (by decide)
  | @char ch after ahead noSelector noArrow =>
    obtain rfl : v = [ch] := hv.unique (front_code ahead)
    exact not_endsInName_singleton (not_isNameStart_of_char h)

theorem ofCall?_ne_virtualObject (word : String) : Marker.ofCall? word ≠ some .virtualObject := by
  unfold Marker.ofCall?
  split <;> simp

/-- A word makes the marker of a call if it is the word and the call follows. -/
theorem marker?_eq_some_iff (hm : Marker.ofCall? word = some m) (s : State) (text : List Char)
    (d : Cursor) : s.marker? text d = some m ↔ text = word.toList ∧ d.callFollows := by
  have hsame : Marker.ofCall? (String.ofList text) = some m ↔ text = word.toList := by
    constructor
    · intro h
      rw [← ofCall?_injective hm h, String.toList_ofList]
    · rintro rfl
      rw [String.ofList_toList, hm]
  have hother : m ≠ .virtualObject := by
    rintro rfl
    exact ofCall?_ne_virtualObject word hm
  unfold State.marker?
  cases hcall : d.callFollows with
  | true =>
    cases hmark : Marker.ofCall? (String.ofList text) with
    | some n => simp [← hsame, hmark]
    | none => simp [← hsame, hmark, hother.symm]
  | false => simp [hother.symm]

theorem has_read_call (hm : Marker.ofCall? word = some m) (s : State) (c d : Cursor)
    (item : Item) : (s.read c d item).features.has m ↔
      s.features.has m ∨ item = .word ∧ c.textTo d = word.toList ∧ d.callFollows := by
  have hselector : Marker.enhancedSelector ≠ m := by
    rintro rfl
    exact ofCall?_ne (.inl rfl) word hm
  have harrow : Marker.arrow ≠ m := by
    rintro rfl
    exact ofCall?_ne (.inr rfl) word hm
  cases item with
  | word =>
    rw [State.read, word_eq]
    change (s.mark _).features.has m ↔ _
    rw [mark_features, marker?_eq_some_iff hm]
    simp
  | selector => exact (mark_features s (some .enhancedSelector) m).trans (by simp [hselector])
  | arrow => exact (mark_features s (some .arrow) m).trans (by simp [harrow])
  | string | comment | space | char => simp [State.read, State.inside, State.char]

end FeatureScan

/-- A call of the word begins at a place in code, and no name goes on with the word. -/
structure Cursor.Called (word : String) (c d : Cursor) : Prop where
  code : c.Unguarded .script d
  ahead : Calls word d.rest
  free : ∀ u, c.Consumes u d → ¬ EndsInName u

namespace FeatureScan

variable {c d e : Cursor} {item : Item}

theorem eq_nil_of_consumes_self (h : c.Consumes u c) : u = [] := h.unique (.refl c)

/-- The item is the word, and the call follows. -/
theorem called_self {d : c.Later} (hitem : item? c = some (.word, d)) (hword : IsName word) :
    c.Called word c ↔ c.textTo d.cursor = word.toList ∧ d.cursor.callFollows := by
  obtain ⟨first, name, hsplit, hfirst, hname⟩ := hword
  generalize hx : Item.word = x at hitem
  cases takes_of_item? hitem with
  | @word ch after ahead start =>
    obtain ⟨v, hv⟩ := (after.eatWhile isNamePart).reaches
    rw [hv.textTo_eq, callFollows_iff]
    constructor
    · rintro ⟨-, ⟨gap, rest, hrest, hgap⟩, -⟩
      have hrest' := hrest
      rw [hsplit, (front_code ahead).1, List.cons_append] at hrest
      have hstop : (after.eatWhile isNamePart).cursor.rest = gap ++ '(' :: rest :=
        rest_eatWhile_append hname (not_isNamePart_gap hgap) (List.cons.inj hrest).2
      refine ⟨?_, gap, rest, hstop, hgap⟩
      have hwhole := hv.1
      rw [hrest', hstop] at hwhole
      exact (List.append_cancel_right hwhole).symm
    · rintro ⟨rfl, gap, rest, hrest, hgap⟩
      refine ⟨⟨⟨[], .refl c⟩, ch, after, ahead⟩, ⟨gap, rest, by rw [← hrest]; exact hv.1, hgap⟩,
        fun u hu => ?_⟩
      rw [eq_nil_of_consumes_self hu]
      exact not_endsInName_nil
  | string | comment | space | selector | arrow | char => cases hx

/-- The places of calls behind an item are those of the text from the end of the item on. -/
theorem called_behind {d : c.Later} (hitem : item? c = some (item, d)) (hword : IsName word)
    (hcode : d.cursor.Unguarded .script e) : c.Called word e ↔ d.cursor.Called word e := by
  obtain ⟨code, hpass⟩ := (takes_of_item? hitem).passes
  obtain ⟨v, hv⟩ := d.reaches
  obtain ⟨_, hread⟩ := hcode.1
  obtain ⟨u, hu⟩ := hread.reaches
  have hfree : Calls word e.rest → (EndsInName (v ++ u) ↔ EndsInName u) := by
    intro hahead
    rw [endsInName_append]
    refine or_iff_left fun ⟨hends, hparts⟩ => not_endsInName_item hitem hv ?_ hends
    cases u with
    | nil =>
      obtain ⟨ch, rest, hrest, hch⟩ := hahead.head hword
      simp [hu.1, hrest, isNamePart_of_isNameStart hch]
    | cons x u => simp [hu.1, hparts]
  constructor
  · rintro ⟨-, hahead, hfrom⟩
    refine ⟨hcode, hahead, fun w hw => ?_⟩
    rw [hw.unique hu, ← hfree hahead]
    exact hfrom _ (hv.trans hu)
  · rintro ⟨-, hahead, hfrom⟩
    refine ⟨hcode.behind hpass, hahead, fun w hw => ?_⟩
    rw [hw.unique (hv.trans hu), hfree hahead]
    exact hfrom u hu

/-- Within an item only a word is called, from its first letter on. -/
theorem eq_of_called {d : c.Later} (hitem : item? c = some (item, d)) (hword : IsName word)
    (hcalled : c.Called word e) (hwithin : ¬ d.cursor.Unguarded .script e) :
    item = .word ∧ e = c := by
  obtain ⟨code, hpass⟩ := (takes_of_item? hitem).passes
  obtain ⟨v, hv⟩ := d.reaches
  obtain hbehind | ⟨u, w, rfl, hne, hu, hw⟩ := hcalled.code.split hpass hv
  · exact absurd hbehind hwithin
  obtain ⟨x, rest, hrest, hx⟩ := hcalled.ahead.head hword
  have hfirst : x ∈ w.head? := by
    obtain ⟨y, w, rfl⟩ := List.exists_cons_of_ne_nil hne
    have hsame := hw.1
    rw [hrest, List.cons_append] at hsame
    simpa using (List.cons.inj hsame).1.symm
  -- no name begins with the character if the item is only that
  have hone : ∀ {ch} {after : c.Later}, c.front .script = .code ch after →
      ¬ after.cursor.Unguarded .script e → isNameStart ch := by
    intro ch after ahead hnot
    obtain rfl := ((unguarded_code ahead).1 hcalled.code).resolve_right hnot
    rw [(front_code ahead).1] at hrest
    rwa [(List.cons.inj hrest).1]
  cases takes_of_item? hitem with
  | string ahead => exact absurd ((unguarded_region ahead).1 hcalled.code) hwithin
  | comment ahead => exact absurd ((unguarded_region ahead).1 hcalled.code) hwithin
  | space ahead space =>
    have hname := isNamePart_of_isNameStart (hone ahead hwithin)
    simp [isAsciiSpace_of_isNamePart hname] at space
  | @word ch after ahead start =>
    refine ⟨rfl, ?_⟩
    cases u with
    | nil => exact hu.eq_of_nil
    | cons y u =>
      obtain ⟨name, hread, hname, -⟩ := passes_eatWhile_isNamePart after.cursor
      have hwhole : y :: u ++ w = ch :: name :=
        hv.unique (Consumes.trans (u := [ch]) (front_code ahead) hread)
      obtain ⟨rfl, rfl⟩ := List.cons.inj hwhole
      refine absurd ⟨[], y, u, rfl, start, fun z hz => ?_⟩ (hcalled.free _ hu)
      exact hname z (List.mem_append_left w hz)
  | selector ahead found =>
    obtain ⟨w', hw', hread⟩ := reads_enhancedSelector? found
    have hahead := hcalled.ahead
    rw [hw.1] at hahead
    exact absurd hahead (not_calls_of_selector hw' (hread.unique hv) hne hword _)
  | arrow ahead found =>
    have harrow := hv.unique (consumes_arrow ahead found)
    have hmem : x ∈ ['-', '>'] := by
      rw [← harrow]
      exact List.mem_append_right u (List.mem_of_mem_head? hfirst)
    simp only [List.mem_cons, List.not_mem_nil, or_false] at hmem
    rcases hmem with rfl | rfl <;> exact absurd hx (by decide)
  | char ahead noSelector noArrow =>
    have hname := hone ahead hwithin
    rw [not_isNameStart_of_char hitem] at hname
    cases hname

theorem exists_called_iff {d : c.Later} (hitem : item? c = some (item, d)) (hword : IsName word) :
    (∃ e, c.Called word e) ↔
      item = .word ∧ c.textTo d.cursor = word.toList ∧ d.cursor.callFollows ∨
      ∃ e, d.cursor.Called word e := by
  constructor
  · rintro ⟨e, he⟩
    by_cases hcode : d.cursor.Unguarded .script e
    · exact .inr ⟨e, (called_behind hitem hword hcode).1 he⟩
    · obtain ⟨rfl, rfl⟩ := eq_of_called hitem hword he hcode
      exact .inl ⟨rfl, (called_self hitem hword).1 he⟩
  · rintro (⟨rfl, hself⟩ | ⟨e, he⟩)
    · exact ⟨c, (called_self hitem hword).2 hself⟩
    · exact ⟨e, (called_behind hitem hword he.code).2 he⟩

theorem has_scanFrom_call (hm : Marker.ofCall? word = some m) (s : State) (c : Cursor) :
    (scanFrom s c).features.has m ↔ s.features.has m ∨ ∃ e, c.Called word e := by
  have hword := isName_of_ofCall? hm
  rw [scanFrom_eq]
  split
  · next hnone =>
    have hno : ∀ e, ¬ c.Called word e := fun e he => not_unguarded_of_item? hnone he.code
    simp [hno]
  · next item d hitem =>
    have hshort := d.length_lt
    rw [has_scanFrom_call hm, has_read_call hm, exists_called_iff hitem hword, or_assoc]
termination_by c.rest.length

end FeatureScan

/-! ## Whole words -/

/-- A part of a name that begins none is a digit. -/
theorem isDigit_of_isNamePart {ch : Char} (h : isNamePart ch) (hstart : isNameStart ch = false) :
    ch.isDigit := by
  simp only [isNameStart, Bool.or_eq_false_iff] at hstart
  simpa [isNamePart, Char.isAlphanum, hstart] using h

namespace Cursor

/-- A call of the word begins at a place in code, and the word is whole: neither a part of a name
nor a letter stands in front of it. -/
structure CalledWhole (letter : Char → Prop) (word : String) (c d : Cursor) : Prop where
  code : c.Unguarded .script d
  ahead : Calls word d.rest
  alone : ∀ u ch, c.Consumes (u ++ [ch]) d → isNamePart ch = false ∧ ¬ letter ch

/-- A call of the word begins at a place in code behind a letter, or behind a digit with which no
name ends. -/
structure CalledBehind (letter : Char → Prop) (word : String) (c d : Cursor) : Prop where
  code : c.Unguarded .script d
  ahead : Calls word d.rest
  behind : ∃ u ch, c.Consumes (u ++ [ch]) d ∧
    (letter ch ∨ ch.isDigit ∧ ¬ EndsInName (u ++ [ch]))

variable {letter : Char → Prop} {c d : Cursor}

/-- No name goes on with a whole word. What else the scan takes for one stands behind a letter or
a digit. -/
theorem called_iff_whole_or_behind (hletter : ∀ ch, letter ch → isAscii ch = false) :
    c.Called word d ↔ c.CalledWhole letter word d ∨ c.CalledBehind letter word d := by
  constructor
  · rintro ⟨hcode, hahead, hfree⟩
    by_cases hbehind : c.CalledBehind letter word d
    · exact .inr hbehind
    · refine .inl ⟨hcode, hahead, fun u ch hread => ?_⟩
      have hno : ¬ (letter ch ∨ ch.isDigit ∧ ¬ EndsInName (u ++ [ch])) :=
        fun h => hbehind ⟨hcode, hahead, u, ch, hread, h⟩
      have hname := hfree _ hread
      refine ⟨?_, fun h => hno (.inl h)⟩
      rw [← Bool.not_eq_true]
      intro hpart
      cases hstart : isNameStart ch with
      | true => exact hname ⟨u, ch, [], rfl, hstart, by simp⟩
      | false => exact hno (.inr ⟨isDigit_of_isNamePart hpart hstart, hname⟩)
  · rintro (⟨hcode, hahead, halone⟩ | ⟨hcode, hahead, u, ch, hread, hch⟩)
    · refine ⟨hcode, hahead, fun u hread hname => ?_⟩
      rcases List.eq_nil_or_concat' u with rfl | ⟨u, ch, rfl⟩
      · exact not_endsInName_nil hname
      · exact absurd hname.last (by simp [(halone u ch hread).1])
    · refine ⟨hcode, hahead, fun v hv => ?_⟩
      rw [hv.unique hread]
      rcases hch with hch | ⟨-, hname⟩
      · intro hname
        have hascii := isAscii_of_isNamePart hname.last
        rw [hletter ch hch] at hascii
        cases hascii
      · exact hname

end Cursor

namespace FeatureScan

open Selector

/-- A script is marked for a call exactly if it is called where no name goes on with the word:
where the word is whole, or behind a letter beyond ASCII, or behind a digit of a number. So the
mark tells of calls of the whole word if there is one, or if no call stands behind such a letter
or digit, and only then. No call begins in a selector. -/
theorem has_call_iff (hm : Marker.ofCall? word = some m) {letter : Char → Prop}
    (hletter : ∀ ch, letter ch → isAscii ch = false) (c : Cursor) :
    ((ofCursor c).features.has m ↔
      ∃ d, c.CalledWhole letter word d ∨ c.CalledBehind letter word d) ∧
    (((ofCursor c).features.has m ↔ ∃ d, c.CalledWhole letter word d) ↔
      (∃ d, c.CalledWhole letter word d) ∨ ¬ ∃ d, c.CalledBehind letter word d) ∧
    ∀ u v rest, u ++ v ∈ selector → v ≠ [] → ¬ Calls word (v ++ rest) := by
  have hscan := has_scanFrom_call hm .initial c
  simp only [State.initial, Features.has_none, Bool.false_eq_true, false_or,
    called_iff_whole_or_behind hletter] at hscan
  have hhas : (ofCursor c).features.has m ↔
      ∃ d, c.CalledWhole letter word d ∨ c.CalledBehind letter word d := hscan
  refine ⟨hhas, ?_, fun u v rest hw hne => ?_⟩
  · rw [hhas, exists_or]
    tauto
  · exact not_calls_of_selector hw rfl hne (isName_of_ofCall? hm) rest

/-- A call of a longer name, which ends with the word behind a letter beyond ASCII, marks the
script. -/
theorem has_call_iff_letter :
    let c : Cursor := ⟨.start, "élisten(x)".toList⟩
    Marker.ofCall? "listen" = some .listenCall ∧ (∀ ch, ch = 'é' → isAscii ch = false) ∧
      (ofCursor c).features.has .listenCall ∧
      (∃ d, c.CalledBehind (· = 'é') "listen" d) ∧
      ¬ ∃ d, c.CalledWhole (· = 'é') "listen" d := by
  intro c
  have hletter : ∀ ch, ch = 'é' → isAscii ch = false := by
    rintro ch rfl
    decide
  have hlisten : (ofCursor c).features.has .listenCall := by decide +kernel
  have hnone : ¬ ∃ d, c.CalledWhole (· = 'é') "listen" d := by
    rintro ⟨d, ⟨⟨_, hpass⟩, -⟩, ⟨gap, rest, hahead, -⟩, halone⟩
    obtain ⟨u, hread⟩ := hpass.reaches
    have htext : ['é', 'l', 'i', 's', 't', 'e', 'n', '(', 'x', ')'] =
        u ++ ("listen".toList ++ (gap ++ '(' :: rest)) := by
      rw [← hahead]
      exact hread.1
    match u, hread, htext with
    | [], _, htext => simp at htext
    | [ch], hread, htext =>
      obtain ⟨rfl, -⟩ := List.cons.inj htext
      exact (halone [] 'é' hread).2 rfl
    | _ :: _ :: u, _, htext =>
      -- the letters behind the first one hold no other `l`
      obtain ⟨-, htext⟩ := List.cons.inj htext
      obtain ⟨-, htext⟩ := List.cons.inj htext
      have hmem : 'l' ∈ ['i', 's', 't', 'e', 'n', '(', 'x', ')'] := by
        rw [htext]
        simp
      exact absurd hmem (by decide)
  have hcall : Marker.ofCall? "listen" = some .listenCall := rfl
  obtain ⟨d, hwhole | hbehind⟩ := (has_call_iff hcall hletter c).1.1 hlisten
  · exact absurd ⟨d, hwhole⟩ hnone
  · exact ⟨hcall, hletter, hlisten, ⟨d, hbehind⟩, hnone⟩

end FeatureScan

end Polyglot
