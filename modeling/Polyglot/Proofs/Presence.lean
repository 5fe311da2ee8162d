-- SUMMARY: A script is marked for a selector or an arrow exactly if one begins in its code.
import Polyglot.Proofs.Grammar

/-!
# The presence of selectors and arrows

A scan steps over words, selectors and arrows as a whole. None of them hides the beginning of
another selector or arrow, and behind each of them the scan goes on where a walk over code and
guarded regions comes by (`FeatureScan.Takes.exists_unguarded_iff`). So the two markers are
exact (`FeatureScan.has_ofCursor_iff`).
-/

namespace Polyglot

open Cursor

/-- The text begins with what the marker stands for: a selector or an arrow. -/
def Marker.Begins : Marker → List Char → Prop
  | .enhancedSelector, text => ∃ w ∈ Selector.selector, w <+: text
  | .arrow, text => ['-', '>'] <+: text
  | _, _ => False

namespace FeatureScan

open Selector

variable {c d e : Cursor} {m : Marker} {item : Item} {text : List Char}

/-! ## Items and their beginnings -/

/-- The marker that an item stands for. -/
def Item.marker? : Item → Option Marker
  | .selector => some .enhancedSelector
  | .arrow => some .arrow
  | _ => none

theorem ofCall?_ne (hm : m = .enhancedSelector ∨ m = .arrow) (word : String) :
    Marker.ofCall? word ≠ some m := by
  unfold Marker.ofCall?
  rcases hm with rfl | rfl
  · split <;> simp
  · split <;> simp

/-- Words mark calls and bindings only. -/
theorem marker?_ne (hm : m = .enhancedSelector ∨ m = .arrow) (s : State) (word : List Char)
    (d : Cursor) : s.marker? word d ≠ some m := by
  have hcall : (if d.callFollows then Marker.ofCall? (String.ofList word) else none) ≠ some m := by
    split
    · exact ofCall?_ne hm _
    · simp
  unfold State.marker?
  simp only
  generalize (if d.callFollows then Marker.ofCall? (String.ofList word) else none) = call at hcall ⊢
  cases call with
  | some n => exact hcall
  | none =>
    rcases hm with rfl | rfl
    · simp
    · simp

theorem has_read (hm : m = .enhancedSelector ∨ m = .arrow) (s : State) (c d : Cursor)
    (item : Item) : (s.read c d item).features.has m ↔
      s.features.has m ∨ item.marker? = some m := by
  cases item with
  | word =>
    rw [State.read, word_eq]
    change (s.mark _).features.has m ↔ _
    rw [mark_features]
    simp [marker?_ne hm, Item.marker?]
  | selector => exact mark_features s (some .enhancedSelector) m
  | arrow => exact mark_features s (some .arrow) m
  | string | comment | space | char => simp [State.read, State.inside, State.char, Item.marker?]

/-- A selector begins with a brace, and an arrow with a hyphen. -/
theorem head_of_begins (h : m.Begins text) :
    ∃ ch t, text = ch :: t ∧ (ch = '{' ∧ m = .enhancedSelector ∨ ch = '-' ∧ m = .arrow) := by
  cases m with
  | enhancedSelector =>
    obtain ⟨_, ⟨_, ⟨_, ⟨_, ⟨_, rfl, _, -, rfl⟩, _, -, rfl⟩, _, -, rfl⟩, _, -, rfl⟩, t, rfl⟩ := h
    exact ⟨_, _, rfl, .inl ⟨rfl, rfl⟩⟩
  | arrow =>
    obtain ⟨t, rfl⟩ := h
    exact ⟨_, _, rfl, .inr ⟨rfl, rfl⟩⟩
  | listenCall | delegateCall | animateCall | virtualObject => exact h.elim

/-- Neither begins with a character of a class without braces and hyphens. -/
theorem not_begins_of_class {p : Char → Bool} (hbrace : p '{' = false) (hhyphen : p '-' = false)
    {ch : Char} (hch : p ch) (t : List Char) : ¬ m.Begins (ch :: t) := by
  intro h
  obtain ⟨x, y, hxy, hx⟩ := head_of_begins h
  obtain ⟨rfl, -⟩ := List.cons.inj hxy
  rcases hx with ⟨rfl, -⟩ | ⟨rfl, -⟩
  · simp [hbrace] at hch
  · simp [hhyphen] at hch

/-- What begins at no character of a text that was read is found behind the text. -/
theorem unguarded_behind {u code : List Char} (hpass : c.Passes .script code d)
    (hread : c.Consumes u d) (hu : ∀ ch ∈ u, ∀ t, ¬ m.Begins (ch :: t))
    (he : c.Unguarded .script e) (hm : m.Begins e.rest) : d.Unguarded .script e := by
  rcases he.split hpass hread with hbehind | ⟨x, v, rfl, hne, -, hv⟩
  · exact hbehind
  · obtain ⟨ch, v, rfl⟩ := List.exists_cons_of_ne_nil hne
    rw [hv.1] at hm
    exact absurd hm (hu ch (by simp) _)

/-- No arrow begins in a selector. -/
theorem unguarded_of_selector {w : List Char} (hw : w ∈ selector) {code : List Char}
    (hpass : c.Passes .script code d) (hread : c.Consumes w d) (he : c.Unguarded .script e)
    (harrow : ['-', '>'] <+: e.rest) : d.Unguarded .script e := by
  rcases he.split hpass hread with hbehind | ⟨x, v, rfl, hne, -, hv⟩
  · exact hbehind
  · obtain ⟨t, ht⟩ := harrow
    exfalso
    have hover := over_selector _ hw
    obtain ⟨_, -, _, rfl, hend⟩ := hw
    have hsplit : '-' :: '>' :: t = v ++ d.rest := ht.trans hv.1
    match v, hne with
    | [y], _ =>
      obtain ⟨rfl, -⟩ := List.cons.inj hsplit
      simpa using congrArg List.getLast? hend
    | y :: z :: v, _ =>
      obtain ⟨-, hsplit⟩ := List.cons.inj hsplit
      obtain ⟨rfl, -⟩ := List.cons.inj hsplit
      exact absurd (hover '>' (by simp)) (by decide)

/-! ## Item by item -/

theorem consumes_arrow {ch : Char} {after : c.Later} (ahead : c.front .script = .code ch after)
    (found : c.startsWith ['-', '>']) : c.Consumes ['-', '>'] after.advance.cursor := by
  obtain ⟨rfl, t, hrest⟩ := front_arrow ahead found
  have hsecond : after.cursor.Consumes ['>'] after.advance.cursor := consumes_advance hrest
  exact Consumes.trans (u := ['-']) (front_code ahead) hsecond

/-- What the next item is, and where it ends. -/
inductive Takes (c : Cursor) : Item → c.Later → Prop where
  | string {after : c.Later} (ahead : c.front .script = .region .string after) :
      Takes c .string after
  | comment {kind : GuardKind} {after : c.Later} (ahead : c.front .script = .region kind after) :
      Takes c .comment after
  | space {ch : Char} {after : c.Later} (ahead : c.front .script = .code ch after)
      (space : isAsciiSpace ch) : Takes c (.space ch) after
  | word {ch : Char} {after : c.Later} (ahead : c.front .script = .code ch after)
      (start : isNameStart ch) : Takes c .word (after.eatWhile isNamePart)
  | selector {ch : Char} {after past : c.Later} (ahead : c.front .script = .code ch after)
      (found : c.enhancedSelector? = some past) : Takes c .selector past
  | arrow {ch : Char} {after : c.Later} (ahead : c.front .script = .code ch after)
      (found : c.startsWith ['-', '>']) : Takes c .arrow after.advance
  | char {ch : Char} {after : c.Later} (ahead : c.front .script = .code ch after)
      (noSelector : c.enhancedSelector? = none) (noArrow : ¬ c.startsWith ['-', '>']) :
      Takes c (.char ch) after

theorem takes_of_item? {d : c.Later} (h : item? c = some (item, d)) : Takes c item d := by
  unfold item? at h
  split at h
  · cases h
  · cases h
  · next ahead =>
    cases h
    exact .string ahead
  · next ahead =>
    cases h
    exact .comment ahead
  · next ahead =>
    split at h
    · next space =>
      cases h
      exact .space ahead space
    · split at h
      · next start =>
        cases h
        exact .word ahead start
      · split at h
        · next found =>
          cases h
          exact .selector ahead found
        · next noSelector =>
          split at h
          · next found =>
            cases h
            exact .arrow ahead found
          · next noArrow =>
            cases h
            exact .char ahead noSelector noArrow

theorem Takes.passes {d : c.Later} (h : Takes c item d) :
    ∃ code, c.Passes .script code d.cursor := by
  cases h with
  | string ahead | comment ahead => exact ⟨_, .region ahead (.refl _)⟩
  | space ahead | char ahead => exact ⟨_, .code ahead (.refl _)⟩
  | word ahead start =>
    obtain ⟨code, -, hpass, -⟩ := inline_word ahead start
    exact ⟨code, hpass⟩
  | selector _ found =>
    obtain ⟨code, -, hpass, -⟩ := inline_enhancedSelector? found
    exact ⟨code, hpass⟩
  | arrow ahead found =>
    obtain ⟨code, -, hpass, -⟩ := inline_arrow ahead found
    exact ⟨code, hpass⟩

/-- An item that is a selector or an arrow begins with one. -/
theorem Takes.begins {d : c.Later} (h : Takes c item d) (hm : item.marker? = some m) :
    c.Unguarded .script c ∧ m.Begins c.rest := by
  cases h with
  | selector ahead found =>
    cases hm
    exact ⟨⟨⟨[], .refl c⟩, _, _, ahead⟩, (enhancedSelector?_isSome_iff c).1 (by simp [found])⟩
  | arrow ahead found =>
    cases hm
    exact ⟨⟨⟨[], .refl c⟩, _, _, ahead⟩, List.isPrefixOf_iff_prefix.1 found⟩
  | string | comment | space | word | char => cases hm

/-- No other selector or arrow begins in an item. -/
theorem Takes.behind {d : c.Later} (h : Takes c item d) (hm : item.marker? ≠ some m)
    (he : c.Unguarded .script e) (hbegins : m.Begins e.rest) : d.cursor.Unguarded .script e := by
  cases h with
  | string ahead | comment ahead => exact (unguarded_region ahead).1 he
  | space ahead space =>
    rcases (unguarded_code ahead).1 he with rfl | he
    · rw [(front_code ahead).1] at hbegins
      exact absurd hbegins (not_begins_of_class (p := isAsciiSpace) (by decide) (by decide) space _)
    · exact he
  | word ahead start =>
    obtain ⟨name, hread, hname, hpass⟩ := passes_eatWhile_isNamePart _
    rcases (unguarded_code ahead).1 he with rfl | he
    · rw [(front_code ahead).1] at hbegins
      exact absurd hbegins (not_begins_of_class (p := isNameStart) (by decide) (by decide) start _)
    · refine unguarded_behind hpass hread (fun x hx => ?_) he hbegins
      exact not_begins_of_class (by decide) (by decide) (hname x hx)
  | selector ahead found =>
    obtain ⟨w, hw, hread⟩ := reads_enhancedSelector? found
    obtain ⟨code, -, hpass, -⟩ := inline_enhancedSelector? found
    obtain ⟨x, t, -, hx⟩ := head_of_begins hbegins
    rcases hx with ⟨-, rfl⟩ | ⟨-, rfl⟩
    · exact absurd rfl hm
    · exact unguarded_of_selector hw hpass hread he hbegins
  | arrow ahead found =>
    obtain ⟨code, -, hpass, -⟩ := inline_arrow ahead found
    refine unguarded_behind hpass (consumes_arrow ahead found) (fun x hx y hy => ?_) he hbegins
    obtain ⟨z, t, hz, ⟨rfl, -⟩ | ⟨-, rfl⟩⟩ := head_of_begins hy
    · obtain ⟨rfl, -⟩ := List.cons.inj hz
      simp at hx
    · exact hm rfl
  | char ahead noSelector noArrow =>
    rcases (unguarded_code ahead).1 he with rfl | he
    · obtain ⟨x, t, -, hx⟩ := head_of_begins hbegins
      rcases hx with ⟨-, rfl⟩ | ⟨-, rfl⟩
      · have hfound := (enhancedSelector?_isSome_iff e).2 hbegins
        simp [noSelector] at hfound
      · exact absurd (List.isPrefixOf_iff_prefix.2 hbegins) noArrow
    · exact he

theorem Takes.exists_unguarded_iff {d : c.Later} (h : Takes c item d) :
    (∃ e, c.Unguarded .script e ∧ m.Begins e.rest) ↔
      item.marker? = some m ∨ ∃ e, d.cursor.Unguarded .script e ∧ m.Begins e.rest := by
  by_cases hm : item.marker? = some m
  · exact iff_of_true ⟨c, h.begins hm⟩ (.inl hm)
  · obtain ⟨code, hpass⟩ := h.passes
    simp only [hm, false_or]
    constructor
    · rintro ⟨e, he, hbegins⟩
      exact ⟨e, h.behind hm he hbegins, hbegins⟩
    · rintro ⟨e, he, hbegins⟩
      exact ⟨e, he.behind hpass, hbegins⟩

/-- Where nothing is taken any more, no code is left. -/
theorem not_unguarded_of_item? (h : item? c = none) : ¬ c.Unguarded .script e := by
  refine not_unguarded (fun ch after hfront => ?_) (fun kind after hfront => ?_)
  · simp only [item?, hfront] at h
    split at h
    · cases h
    · split at h
      · cases h
      · split at h
        · cases h
        · split at h <;> cases h
  · cases kind <;> simp [item?, hfront] at h

theorem has_scanFrom (hm : m = .enhancedSelector ∨ m = .arrow) (s : State) (c : Cursor) :
    (scanFrom s c).features.has m ↔
      s.features.has m ∨ ∃ e, c.Unguarded .script e ∧ m.Begins e.rest := by
  rw [scanFrom_eq]
  split
  · next hnone =>
    have hno : ∀ e, ¬ c.Unguarded .script e := fun e => not_unguarded_of_item? hnone
    simp [hno]
  · next item d hitem =>
    have hshort := d.length_lt
    rw [has_scanFrom hm, has_read hm, (takes_of_item? hitem).exists_unguarded_iff, or_assoc]
termination_by c.rest.length

/-- The markers of selectors and arrows are exact: a script is marked if a word of the grammar,
or an arrow, begins somewhere in its code, and only then. -/
theorem has_ofCursor_iff (c : Cursor) :
    ((ofCursor c).features.has .enhancedSelector ↔
      ∃ d, c.Unguarded .script d ∧ ∃ w ∈ selector, w <+: d.rest) ∧
    ((ofCursor c).features.has .arrow ↔
      ∃ d, c.Unguarded .script d ∧ ['-', '>'] <+: d.rest) := by
  have hselector := has_scanFrom (.inl rfl) .initial c
  have harrow := has_scanFrom (.inr rfl) .initial c
  simp only [State.initial, Features.has_none, Bool.false_eq_true, false_or] at hselector harrow
  exact ⟨hselector, harrow⟩

end FeatureScan

end Polyglot
