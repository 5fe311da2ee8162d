-- SUMMARY: A boundary that is moved by byte offsets into the document is moved between characters.
import Polyglot.Proofs.Octet
import Polyglot.Proofs.Window

/-!
# Stitching by offsets

`Fragment.stitchAt?` decides on a boundary by byte offsets. It searches the bytes of two windows,
adds up where the boundary belongs, and reads what the fragments hold from the document again.
Each slice it takes has to be there, and to divide no character. For fragments that lie in the
document, it makes what `Fragment.stitch` makes of their texts (`Fragment.stitchAt?_eq`): every
slice is there, nothing is lost, and what is made lies in the document again.
-/

namespace Polyglot

variable {source tail head text rest inner w : List Char} {i window offset : Nat}

/-! ## Searching for a selector -/

/-- The index of the last place where some bytes stand, counted from `i`, or `last`. -/
def lastIndexFrom (needle : List UInt8) (i : Nat) (last : Option Nat) : List UInt8 → Option Nat
  | [] => last
  | byte :: bytes =>
    lastIndexFrom needle (i + 1) (if needle.isPrefixOf (byte :: bytes) then some i else last) bytes

/-- The index of the last double opening brace. -/
def lastOpening? (text : List Char) : Option Nat :=
  lastIndexFrom [0x7B, 0x7B] 0 none (utf8Bytes text)

/-- The byte belongs to a selector. -/
def isSelectorByte (byte : UInt8) : Bool := byteClass isSelectorChar byte

/-- The characters of the name of a method behind an arrow. -/
def isMethodChar (ch : Char) : Bool := ch.isAlphanum || ch = '_'

/-- The byte belongs to the name of a method. -/
def isMethodByte (byte : UInt8) : Bool := byteClass isMethodChar byte

/-- The end of the selector that the text closes, with the method behind an arrow. The outer
`none` is a slice that is not there. -/
def compoundEnd? (head : List Char) : Option (Option Nat) :=
  match (utf8Bytes head).findIdx? (fun byte => !isSelectorByte byte) with
  | none => some none
  | some close => do
    let closing ← Passage.dropExactly close head
    if ['}', '}'].isPrefixOf closing then
      let behind ← Passage.dropExactly (close + 2) head
      if ['-', '>'].isPrefixOf behind then
        let name := ((utf8Bytes head).drop (close + 2 + 2)).takeWhile isMethodByte
        some (some (close + 2 + 2 + name.length))
      else some (some (close + 2))
    else some none

/-- Where the boundary belongs if the first text ends inside a selector that the second one,
which begins at an offset, closes. The outer `none` is a slice that is not there. -/
def shiftTarget? (tail head : List Char) (offset : Nat) : Option (Option Nat) :=
  match lastOpening? tail with
  | none => some none
  | some opening => do
    let inner ← Passage.dropExactly (opening + 2) tail
    if (utf8Bytes inner).all isSelectorByte then
      let length? ← compoundEnd? head
      some (length?.map (offset + ·))
    else some none

/-! ### Openings -/

theorem afterLastOpening_or (last : Option (List Char)) (text : List Char) :
    afterLastOpening last text = (afterLastOpening none text).or last := by
  induction text generalizing last with
  | nil => rfl
  | cons ch text ih =>
    rw [afterLastOpening, afterLastOpening]
    split
    · rw [ih (some text.tail)]
      cases afterLastOpening none text <;> rfl
    · exact ih last

/-- The byte of an opening brace stands for nothing else. -/
theorem mem_utf8EncodeChar_iff {ch : Char} : 0x7B ∈ String.utf8EncodeChar ch ↔ ch = '{' := by
  constructor
  · intro h
    have hp : ∀ ch : Char, decide (ch = '{') → isAscii ch := by
      intro ch hch
      rw [of_decide_eq_true hch]
      rfl
    have hbyte := byteClass_of_mem_encode hp 0x7B h
    exact of_decide_eq_true (hbyte.symm.trans (by decide))
  · rintro rfl
    decide

/-- Bytes that hold no opening brace are passed over. -/
theorem lastIndexFrom_append {skipped bytes : List UInt8} (h : 0x7B ∉ skipped)
    (last : Option Nat) : lastIndexFrom [0x7B, 0x7B] i last (skipped ++ bytes) =
      lastIndexFrom [0x7B, 0x7B] (i + skipped.length) last bytes := by
  induction skipped generalizing i with
  | nil => rfl
  | cons byte skipped ih =>
    obtain ⟨hbyte, hskipped⟩ := not_or.1 (List.mem_cons.not.1 h)
    rw [List.cons_append, lastIndexFrom, if_neg (by simp [hbyte]), ih hskipped, List.length_cons,
      Nat.add_assoc, Nat.add_comm 1]

theorem isPrefixOf_opening (text : List Char) :
    [0x7B].isPrefixOf (utf8Bytes text) = decide (text.head? = some '{') := by
  cases text with
  | nil => rfl
  | cons ch text =>
    obtain ⟨byte, more, hencode, -⟩ := utf8EncodeChar_eq ch
    have hfirst : 0x7B = byte ↔ ch = '{' := by
      constructor
      · rintro rfl
        exact mem_utf8EncodeChar_iff.1 (by simp [hencode])
      · rintro rfl
        exact (List.cons.inj hencode).1
    rw [utf8Bytes_cons, hencode, Bool.eq_iff_iff]
    simp [hfirst]

theorem lastIndexFrom_cons (ch : Char) (text : List Char) (last : Option Nat) :
    lastIndexFrom [0x7B, 0x7B] i last (utf8Bytes (ch :: text)) =
      lastIndexFrom [0x7B, 0x7B] (i + ch.utf8Size)
        (if ch = '{' && text.head? = some '{' then some i else last) (utf8Bytes text) := by
  rw [utf8Bytes_cons]
  by_cases hopen : ch = '{'
  · have hbyte : String.utf8EncodeChar '{' = [0x7B] := by decide
    have hahead : ([0x7B, 0x7B] : List UInt8).isPrefixOf (0x7B :: utf8Bytes text) =
        decide (text.head? = some '{') := isPrefixOf_opening text
    subst hopen
    rw [hbyte, List.singleton_append, lastIndexFrom, hahead]
    rfl
  · rw [lastIndexFrom_append (mem_utf8EncodeChar_iff.not.2 hopen), String.length_utf8EncodeChar]
    simp [hopen]

theorem lastIndexFrom_of_none (h : afterLastOpening none text = none) (last : Option Nat) :
    lastIndexFrom [0x7B, 0x7B] i last (utf8Bytes text) = last := by
  induction text generalizing i last with
  | nil => rfl
  | cons ch text ih =>
    rw [afterLastOpening, afterLastOpening_or, Option.or_eq_none_iff] at h
    obtain ⟨hnone, hopen⟩ := h
    rw [lastIndexFrom_cons, ih hnone]
    split at hopen
    · cases hopen
    · next hother => rw [if_neg hother]

/-- The last double opening brace is found where it stands. -/
theorem lastIndexFrom_of_some (h : afterLastOpening none text = some rest) (last : Option Nat) :
    ∃ u, text = u ++ '{' :: '{' :: rest ∧
      lastIndexFrom [0x7B, 0x7B] i last (utf8Bytes text) = some (i + byteLength u) := by
  induction text generalizing i last with
  | nil => cases h
  | cons ch text ih =>
    rw [lastIndexFrom_cons]
    rw [afterLastOpening, afterLastOpening_or, Option.or_eq_some_iff] at h
    rcases h with hlater | ⟨hnone, hopen⟩
    · obtain ⟨u, htext, hfound⟩ := ih (i := i + ch.utf8Size) hlater
        (if ch = '{' && text.head? = some '{' then some i else last)
      refine ⟨ch :: u, by rw [htext, List.cons_append], ?_⟩
      rw [hfound, byteLength_cons, Nat.add_assoc]
    · split at hopen
      · next hcond =>
        rw [Bool.and_eq_true, decide_eq_true_eq, decide_eq_true_eq] at hcond
        obtain ⟨rfl, hnext⟩ := hcond
        obtain ⟨more, rfl⟩ := List.head?_eq_some_iff.1 hnext
        obtain rfl : more = rest := Option.some.inj hopen
        refine ⟨[], rfl, ?_⟩
        rw [lastIndexFrom_of_none hnone]
        rfl
      · cases hopen

/-! ### The target -/

theorem isAscii_of_isSelectorChar (ch : Char) (h : isSelectorChar ch) : isAscii ch := by
  rw [isSelectorChar, Bool.or_eq_true] at h
  rcases h with halphanum | hmark
  · exact isAscii_of_isNamePart (by simp [isNamePart, halphanum])
  · simp only [List.contains_iff_mem, List.mem_cons, List.not_mem_nil, or_false] at hmark
    rcases hmark with rfl | rfl | rfl | rfl | rfl | rfl | rfl | rfl <;> rfl

theorem isNamePart_of_isMethodChar {ch : Char} (h : isMethodChar ch) : isNamePart ch := by
  simp only [isMethodChar, isNamePart, Bool.or_eq_true, decide_eq_true_eq, beq_iff_eq] at h ⊢
  exact .inl h

theorem isAscii_of_isMethodChar (ch : Char) (h : isMethodChar ch) : isAscii ch :=
  isAscii_of_isNamePart (isNamePart_of_isMethodChar h)

/-- What a text gives up to a selector that it closes. -/
def closedSelector (head : List Char) : Option (List Char) :=
  let inner := head.takeWhile isSelectorChar
  match head.drop inner.length with
  | '}' :: '}' :: '-' :: '>' :: text =>
    some (inner ++ ['}', '}', '-', '>'] ++ text.takeWhile isMethodChar)
  | '}' :: '}' :: _ => some (inner ++ ['}', '}'])
  | _ => none

theorem dividedSelector_eq (tail head : List Char) : dividedSelector tail head =
    if (afterLastOpening none tail).any (·.all isSelectorChar) then closedSelector head
    else none := rfl

/-- What a text that begins with the rest of a selector gives up, by what stands behind it. -/
inductive Closes (inner closing : List Char) : Option (List Char) → Prop
  | arrow {text : List Char} (ahead : closing = '}' :: '}' :: '-' :: '>' :: text) :
      Closes inner closing (some (inner ++ ['}', '}', '-', '>'] ++ text.takeWhile isMethodChar))
  | plain {text : List Char} (ahead : closing = '}' :: '}' :: text)
      (noArrow : ['-', '>'].isPrefixOf text = false) :
      Closes inner closing (some (inner ++ ['}', '}']))
  | none (other : ['}', '}'].isPrefixOf closing = false) : Closes inner closing none

theorem closes_closedSelector (head : List Char) :
    Closes (head.takeWhile isSelectorChar) (head.drop (head.takeWhile isSelectorChar).length)
      (closedSelector head) := by
  unfold closedSelector
  simp only
  split
  · next text ahead => exact .arrow ahead
  · next text hother ahead =>
    refine .plain ahead (Bool.eq_false_iff.2 fun harrow => ?_)
    obtain ⟨rest, hrest⟩ := List.isPrefixOf_iff_prefix.1 harrow
    exact hother rest hrest.symm
  · next hother =>
    refine .none (Bool.eq_false_iff.2 fun hclose => ?_)
    obtain ⟨rest, hrest⟩ := List.isPrefixOf_iff_prefix.1 hclose
    exact hother rest hrest.symm

/-- A text that all belongs to a selector closes none. -/
theorem closedSelector_of_all (h : head.all isSelectorChar) : closedSelector head = none := by
  have hrun : head.takeWhile isSelectorChar = head :=
    List.takeWhile_eq_self_iff.2 (List.all_eq_true.1 h)
  rw [closedSelector, hrun, List.drop_length]

theorem dropExactly_closing (inner text : List Char) :
    Passage.dropExactly (byteLength inner + 2) (inner ++ '}' :: '}' :: text) = some text := by
  have hslice := dropExactly_append (inner ++ ['}', '}']) text
  rwa [byteLength_append, List.append_assoc] at hslice

/-- The name of a method behind an arrow, byte by byte. -/
theorem takeWhile_isMethodByte (inner text : List Char) :
    ((utf8Bytes (inner ++ '}' :: '}' :: '-' :: '>' :: text)).drop
      (byteLength inner + 2 + 2)).takeWhile isMethodByte =
        utf8Bytes (text.takeWhile isMethodChar) := by
  have hdrop := drop_utf8Bytes (inner ++ ['}', '}', '-', '>']) text
  rw [byteLength_append, List.append_assoc] at hdrop
  exact (congrArg (·.takeWhile isMethodByte) hdrop).trans
    (takeWhile_utf8Bytes isAscii_of_isMethodChar text)

theorem compoundEnd?_eq (head : List Char) :
    compoundEnd? head = some ((closedSelector head).map byteLength) := by
  unfold compoundEnd? isSelectorByte
  rw [findIdx?_utf8Bytes isAscii_of_isSelectorChar]
  by_cases hall : head.all isSelectorChar
  · rw [if_pos hall, closedSelector_of_all hall]
    rfl
  have hcloses := closes_closedSelector head
  have hhead := List.prefix_iff_eq_append.1 (List.takeWhile_prefix isSelectorChar (l := head))
  rw [if_neg hall]
  generalize closedSelector head = moved at hcloses ⊢
  generalize head.takeWhile isSelectorChar = inner at hcloses hhead ⊢
  generalize head.drop inner.length = closing at hcloses hhead
  subst hhead
  simp only [dropExactly_append, Option.bind_eq_bind, Option.bind_some]
  cases hcloses with
  | @arrow text ahead =>
    have hclose : ['}', '}'].isPrefixOf ('}' :: '}' :: '-' :: '>' :: text) = true := rfl
    have harrow : ['-', '>'].isPrefixOf ('-' :: '>' :: text) = true := rfl
    subst ahead
    rw [if_pos hclose, dropExactly_closing, Option.bind_some, if_pos harrow,
      takeWhile_isMethodByte, length_utf8Bytes, Option.map_some, byteLength_append,
      byteLength_append]
    rfl
  | @plain text ahead noArrow =>
    have hclose : ['}', '}'].isPrefixOf ('}' :: '}' :: text) = true := rfl
    subst ahead
    rw [if_pos hclose, dropExactly_closing, Option.bind_some,
      if_neg (Bool.eq_false_iff.1 noArrow), Option.map_some, byteLength_append]
    rfl
  | none other =>
    rw [if_neg (Bool.eq_false_iff.1 other)]
    rfl

theorem shiftTarget?_eq (tail head : List Char) (offset : Nat) :
    shiftTarget? tail head offset =
      some ((dividedSelector tail head).map fun moved => offset + byteLength moved) := by
  cases hopen : afterLastOpening none tail with
  | none =>
    rw [shiftTarget?, lastOpening?, lastIndexFrom_of_none hopen, dividedSelector_eq, hopen]
    rfl
  | some inner =>
    obtain ⟨u, rfl, hfound⟩ := lastIndexFrom_of_some hopen none (i := 0)
    have hinner : Passage.dropExactly (0 + byteLength u + 2) (u ++ '{' :: '{' :: inner) =
        some inner := by
      have hslice := dropExactly_append (u ++ ['{', '{']) inner
      rw [byteLength_append, List.append_assoc] at hslice
      rw [Nat.zero_add]
      exact hslice
    have hbytes : (utf8Bytes inner).all isSelectorByte = inner.all isSelectorChar :=
      all_utf8Bytes isAscii_of_isSelectorChar inner
    rw [shiftTarget?, lastOpening?, hfound, dividedSelector_eq, hopen, Option.any_some]
    simp only [hinner, Option.bind_eq_bind, Option.bind_some, hbytes, compoundEnd?_eq]
    split
    · rw [Option.map_map]
      rfl
    · rfl

namespace Fragment

variable {f g : Fragment} {window : Nat} {moved : List Char}

/-! ## Stitching -/

/-- What is done with a boundary, where it may belong to another offset. -/
inductive Verdict where
  | keep
  | merge
  | shift (target : Nat)

/-- What is to be done with the boundary between two fragments, seen through two windows. -/
def verdictAt? (window : Nat) (f g : Fragment) : Option Verdict :=
  if (trim g.content).isEmpty then some .merge
  else do
    let tail ← tailWindow? window f.content
    let head ← headWindow? window g.content
    match ← shiftTarget? tail head g.start.offset with
    | some target => some (.shift target)
    | none =>
      if endsInContinuation tail || beginsWithContinuation g.context.guardSet head then some .merge
      else some .keep

/-- The two fragments as one. Its text is read from the document. -/
def mergeAt? (source : List Char) (f g : Fragment) : Option (Fragment × Option Fragment) := do
  let content ← slice? source f.start.offset g.stop.offset
  some ({ f with
    content := content
    stop := g.stop
    features := f.features.union g.features
    literals := f.literals ++ g.literals }, none)

/-- The two fragments with the boundary at an offset. What is moved, and what the two are left
with, is read from the document. -/
def shiftAt? (source : List Char) (target : Nat) (f g : Fragment) :
    Option (Fragment × Option Fragment) := do
  let moved ← slice? source g.start.offset target
  let longer ← slice? source f.start.offset target
  let shorter ← slice? source target g.stop.offset
  let boundary := g.start.advanceOver moved
  some ({ f with content := longer, stop := boundary },
    some { g with content := shorter, start := boundary })

/-- Decide on the boundary between two fragments of a document by offsets. There is no result
if a slice is not there. -/
def stitchAt? (source : List Char) (window : Nat) (f g : Fragment) :
    Option (Fragment × Option Fragment) :=
  if f.precedes g then do
    match ← verdictAt? window f g with
    | .keep => some (f, some g)
    | .merge => mergeAt? source f g
    | .shift target =>
      if g.stop.offset ≤ target then mergeAt? source f g else shiftAt? source target f g
  else some (f, some g)

/-! ## Fragments of a document -/

/-- The fragment lies in a document: its text stands between its offsets, and its positions are
those that the document and the text lead to. -/
structure LiesIn (source : List Char) (f : Fragment) : Prop where
  cut : f.IsCutFrom source
  start : f.start = Position.start.advanceOver (takeBytes f.start.offset source)
  stop : f.stop = f.start.advanceOver f.content

theorem liesIn_iff : f.LiesIn source ↔ ∃ before after, source = before ++ f.content ++ after ∧
    f.start = Position.start.advanceOver before ∧ f.stop = f.start.advanceOver f.content := by
  constructor
  · rintro ⟨cut, start, stop⟩
    obtain ⟨before, after, hsource, hoffset, -⟩ := slice?_eq_some_iff.1 cut
    rw [← hoffset, hsource, List.append_assoc, takeBytes_byteLength] at start
    exact ⟨before, after, hsource, start, stop⟩
  · rintro ⟨before, after, hsource, start, stop⟩
    have hoffset : f.start.offset = byteLength before := by
      rw [start, Position.advanceOver_offset]
      exact Nat.zero_add _
    refine ⟨slice?_eq_some_iff.2 ⟨before, after, hsource, hoffset.symm, ?_⟩, ?_, stop⟩
    · rw [stop, Position.advanceOver_offset, hoffset, byteLength_append]
    · rw [hoffset, hsource, List.append_assoc, takeBytes_byteLength]
      exact start

/-- What one boundary leaves of two fragments. -/
structure IsStitch (source : List Char) (f g first : Fragment) (second : Option Fragment) :
    Prop where
  lies : first.LiesIn source ∧ ∀ k ∈ second, k.LiesIn source
  /-- Of two neighbours, no text is lost. -/
  text : f.stop.offset = g.start.offset →
    first.content ++ (second.map content).getD [] = f.content ++ g.content
  /-- Of two neighbours, the second begins where the first stops. -/
  joint : f.stop.offset = g.start.offset → ∀ k ∈ second, k.start = first.stop
  frame : first.toFrame = f.toFrame
  number : first.id = f.id
  /-- What does not lie side by side in one scope and context, or is degraded, stays. -/
  unchanged : f.stop.offset ≠ g.start.offset ∨ f.scope ≠ g.scope ∨ f.context ≠ g.context ∨
    f.degraded ∨ g.degraded → first = f ∧ second = some g

theorem precedes_iff : f.precedes g ↔ f.stop.offset = g.start.offset ∧ f.scope = g.scope ∧
    f.context = g.context ∧ f.degraded = false ∧ g.degraded = false := by
  simp [precedes, and_assoc]

/-- Of two neighbours in a document, the second begins at the place where the first stops. -/
theorem LiesIn.exists_neighbours (hf : f.LiesIn source) (hg : g.LiesIn source)
    (hnext : f.stop.offset = g.start.offset) : g.start = f.stop ∧
      ∃ before after, source = before ++ f.content ++ g.content ++ after ∧
        f.start = Position.start.advanceOver before := by
  obtain ⟨before, after, hsource, hstart, hstop⟩ := liesIn_iff.1 hf
  obtain ⟨before', after', hsource', hstart', -⟩ := liesIn_iff.1 hg
  have hbytes : byteLength (before ++ f.content) = byteLength before' := by
    have hbehind : g.start.offset = 0 + byteLength before' :=
      (congrArg Position.offset hstart').trans (Position.advanceOver_offset ..)
    have hstop := congrArg Position.offset hstop
    rw [hstart, Position.advanceOver_offset, Position.advanceOver_offset] at hstop
    change _ = 0 + _ + _ at hstop
    rw [byteLength_append]
    omega
  have hbefore : before ++ f.content = before' := by
    rw [← takeBytes_byteLength (before ++ f.content) after, ← hsource, hbytes, hsource',
      List.append_assoc, takeBytes_byteLength]
  refine ⟨?_, before, after', ?_, hstart⟩
  · rw [hstart', ← hbefore, Position.advanceOver_append, hstop, hstart]
  · rw [hbefore]
    exact hsource'

theorem LiesIn.stop_offset (h : f.LiesIn source) :
    f.stop.offset = f.start.offset + byteLength f.content := by
  rw [h.stop, Position.advanceOver_offset]

theorem mergeAt?_eq (hf : f.LiesIn source) (hg : g.LiesIn source)
    (hnext : f.stop.offset = g.start.offset) : mergeAt? source f g = some (f.merge g, none) := by
  have hslice : slice? source f.start.offset g.stop.offset = some (f.content ++ g.content) :=
    slice?_append hf.cut (hnext ▸ hg.cut)
  rw [mergeAt?, hslice]
  rfl

theorem shiftAt?_eq (hf : f.LiesIn source) (hg : g.LiesIn source)
    (hnext : f.stop.offset = g.start.offset) (hmoved : moved <+: g.content) :
    shiftAt? source (g.start.offset + byteLength moved) f g =
      some ((f.shift g moved).1, some (f.shift g moved).2) := by
  obtain ⟨rest, hrest⟩ := hmoved
  obtain ⟨before, after, hsource, hbefore, hbytes⟩ := slice?_eq_some_iff.1 hg.cut
  have hgiven : slice? source g.start.offset (g.start.offset + byteLength moved) = some moved :=
    slice?_eq_some_iff.2 ⟨before, rest ++ after, by rw [hsource, ← hrest]; simp, hbefore, by
      rw [byteLength_append, hbefore]⟩
  have hleft : slice? source (g.start.offset + byteLength moved) g.stop.offset = some rest :=
    slice?_eq_some_iff.2 ⟨before ++ moved, after, by rw [hsource, ← hrest]; simp, by
      rw [byteLength_append, hbefore], by rw [← hbytes, ← hrest]; simp⟩
  have hlonger : slice? source f.start.offset (g.start.offset + byteLength moved) =
      some (f.content ++ moved) := slice?_append (hnext ▸ hf.cut) hgiven
  have hdrop : g.content.drop moved.length = rest := by rw [← hrest, List.drop_left]
  rw [shiftAt?, hgiven, hleft, hlonger, shift, hdrop]
  rfl

theorem verdictAt?_of_blank (h : trim g.content = []) (window : Nat) :
    verdictAt? window f g = some .merge := by
  simp [verdictAt?, h]

theorem verdictAt?_of_divided (hblank : trim g.content ≠ [])
    (h : dividedSelector (lastBytes window f.content) (takeBytes window g.content) = some moved) :
    verdictAt? window f g = some (.shift (g.start.offset + byteLength moved)) := by
  simp [verdictAt?, hblank, tailWindow?_eq, headWindow?_eq, shiftTarget?_eq, h]

theorem verdictAt?_of_whole (hblank : trim g.content ≠ []) (h : Divided window f g) :
    verdictAt? window f g =
      if endsInContinuation (lastBytes window f.content) ∨
        beginsWithContinuation g.context.guardSet (takeBytes window g.content) then some .merge
      else some .keep := by
  have hnone : dividedSelector (lastBytes window f.content) (takeBytes window g.content) = none := h
  simp [verdictAt?, hblank, tailWindow?_eq, headWindow?_eq, shiftTarget?_eq, hnone]

/-- A boundary is moved to an offset in front of the end exactly if less than all of the text
is moved. -/
theorem LiesIn.stop_le_iff (hg : g.LiesIn source) (hmoved : moved <+: g.content) :
    g.stop.offset ≤ g.start.offset + byteLength moved ↔ ¬ moved.length < g.content.length := by
  obtain ⟨rest, hrest⟩ := hmoved
  have hstop := hg.stop_offset
  rw [← hrest, byteLength_append] at hstop
  rw [hstop, ← hrest, List.length_append]
  cases rest with
  | nil => simp
  | cons ch rest =>
    have hsize := ch.utf8Size_pos
    simp only [byteLength_cons, List.length_cons]
    omega

/-- Decisions by offsets are decisions by texts. -/
theorem stitchAt?_eq (hf : f.LiesIn source) (hg : g.LiesIn source) (window : Nat) :
    stitchAt? source window f g = some (f.stitch window g) := by
  unfold stitchAt? stitch
  split
  · next hnext =>
    have hoffset := (precedes_iff.1 hnext).1
    have hmerge := mergeAt?_eq hf hg hoffset
    by_cases hblank : trim g.content = []
    · rw [between_of_blank hblank, verdictAt?_of_blank hblank]
      exact hmerge
    · cases hdivided : dividedSelector (lastBytes window f.content)
          (takeBytes window g.content) with
      | none =>
        rw [between_of_whole hblank hdivided, verdictAt?_of_whole hblank hdivided]
        split
        · exact hmerge
        · rfl
      | some moved =>
        have hfits := takeBytes_prefix window g.content
        have hmoved := (moved_begins hdivided).2.trans hfits
        -- both sides look whether anything is left, one by offsets and one by lengths
        have hend := hg.stop_le_iff hmoved
        rw [between_of_divided hblank hdivided, verdictAt?_of_divided hblank hdivided]
        simp only [Option.bind_eq_bind, Option.bind_some]
        split
        · next hwhole =>
          rw [if_neg (hend.1 hwhole)]
          exact hmerge
        · next hshort =>
          rw [if_pos (Decidable.not_not.1 (mt hend.2 hshort))]
          exact shiftAt?_eq hf hg hoffset hmoved
  · rfl

/-! ## What is left of a pair -/

theorem isStitch_merge (hf : f.LiesIn source) (hg : g.LiesIn source) (hnext : f.precedes g) :
    IsStitch source f g (f.merge g) none := by
  obtain ⟨hoffset, hscope, hcontext, hf', hg'⟩ := precedes_iff.1 hnext
  obtain ⟨hstart, before, after, hsource, hbefore⟩ := hf.exists_neighbours hg hoffset
  have hlies : (f.merge g).LiesIn source := by
    refine liesIn_iff.2 ⟨before, after, ?_, hbefore, ?_⟩
    · rw [hsource, merge, List.append_assoc before]
    · change g.stop = f.start.advanceOver (f.content ++ g.content)
      rw [Position.advanceOver_append, ← hf.stop, ← hstart, hg.stop]
  exact { lies := ⟨hlies, fun k hk => by cases hk⟩
          text := fun _ => List.append_nil _
          joint := fun _ k hk => by cases hk
          frame := rfl
          number := rfl
          unchanged := fun h => by simp [hoffset, hscope, hcontext, hf', hg'] at h }

theorem isStitch_shift (hf : f.LiesIn source) (hg : g.LiesIn source) (hnext : f.precedes g)
    (hmoved : moved <+: g.content) :
    IsStitch source f g (f.shift g moved).1 (some (f.shift g moved).2) := by
  obtain ⟨rest, hrest⟩ := hmoved
  obtain ⟨hoffset, hscope, hcontext, hf', hg'⟩ := precedes_iff.1 hnext
  obtain ⟨hstart, before, after, hsource, hbefore⟩ := hf.exists_neighbours hg hoffset
  have hdrop : g.content.drop moved.length = rest := by rw [← hrest, List.drop_left]
  have hfirst : (f.shift g moved).1.LiesIn source := by
    refine liesIn_iff.2 ⟨before, rest ++ after, ?_, hbefore, ?_⟩
    · rw [hsource, ← hrest]
      simp [shift]
    · change g.start.advanceOver moved = f.start.advanceOver (f.content ++ moved)
      rw [Position.advanceOver_append, ← hf.stop, hstart]
  have hsecond : (f.shift g moved).2.LiesIn source := by
    refine liesIn_iff.2 ⟨before ++ f.content ++ moved, after, ?_, ?_, ?_⟩
    · rw [hsource, shift, hdrop, ← hrest]
      simp
    · change g.start.advanceOver moved = _
      rw [hstart, hf.stop, hbefore, Position.advanceOver_append, Position.advanceOver_append]
    · change g.stop = (g.start.advanceOver moved).advanceOver (g.content.drop moved.length)
      rw [hdrop, ← Position.advanceOver_append, hrest, hg.stop]
  exact { lies := ⟨hfirst, fun k hk => by cases hk; exact hsecond⟩
          text := fun _ => by simp [shift, ← hrest]
          joint := fun _ k hk => by cases hk; rfl
          frame := rfl
          number := rfl
          unchanged := fun h => by simp [hoffset, hscope, hcontext, hf', hg'] at h }

theorem isStitch_keep (hf : f.LiesIn source) (hg : g.LiesIn source) :
    IsStitch source f g f (some g) where
  lies := ⟨hf, fun k hk => by cases hk; exact hg⟩
  text _ := rfl
  joint hoffset k hk := by
    cases hk
    exact (hf.exists_neighbours hg hoffset).1
  frame := rfl
  number := rfl
  unchanged _ := ⟨rfl, rfl⟩

theorem isStitch_stitch (hf : f.LiesIn source) (hg : g.LiesIn source) (window : Nat) :
    IsStitch source f g (f.stitch window g).1 (f.stitch window g).2 := by
  unfold stitch
  split
  · next hnext =>
    split
    · exact isStitch_keep hf hg
    · exact isStitch_merge hf hg hnext
    · next moved hshift =>
      have hfits := takeBytes_prefix window g.content
      have hmoved := (moved_begins (dividedSelector_of_shift hshift)).2.trans hfits
      exact isStitch_shift hf hg hnext hmoved
  · exact isStitch_keep hf hg

/-- Two fragments that lie in a document are stitched by offsets, whatever the window: every
slice is there, the result is the one that their texts lead to, and its fragments lie in the
document again, with nothing lost between them. -/
theorem resliced_stitch (hf : f.LiesIn source) (hg : g.LiesIn source) (window : Nat) :
    ∃ first second, stitchAt? source window f g = some (first, second) ∧
      f.stitch window g = (first, second) ∧ IsStitch source f g first second :=
  ⟨_, _, stitchAt?_eq hf hg window, rfl, isStitch_stitch hf hg window⟩

/-- A window of four bytes that begins inside one character and ends inside another. -/
theorem resliced_stitch_cut :
    let source := "é\x7b\x7bb\x7d\x7d€".toList
    let frame : Frame := ⟨.scriptLocal, 1, [.global], 1⟩
    let f := frame.fragment false 0 "é\x7b\x7bb".toList .start ⟨5, 1, 5⟩
    let g := frame.fragment false 1 "\x7d\x7d€".toList ⟨5, 1, 5⟩ ⟨10, 1, 8⟩
    f.LiesIn source ∧ g.LiesIn source ∧
    (f.stitch 4 g).1.content = "é\x7b\x7bb\x7d\x7d".toList ∧
    ∃ first second, stitchAt? source 4 f g = some (first, second) ∧
      f.stitch 4 g = (first, second) ∧ IsStitch source f g first second := by
  intro source frame f g
  have hf : f.LiesIn source := ⟨by decide +kernel, by decide +kernel, by decide +kernel⟩
  have hg : g.LiesIn source := ⟨by decide +kernel, by decide +kernel, by decide +kernel⟩
  exact ⟨hf, hg, by decide +kernel, resliced_stitch hf hg 4⟩

end Fragment

end Polyglot
