-- SUMMARY: Which counters fit into 32 bits, in a document that is not too large.
import Polyglot.Proofs.Brace
import Polyglot.Proofs.Caret
import Polyglot.Proofs.Cut
import Polyglot.Proofs.Motion
import Polyglot.Proofs.Number
import Polyglot.Proofs.Octet
import Polyglot.Text.Packed

/-!
# Counters in 32 bits

A document is too large if its length does not fit into 32 bits. In one that is not, every
offset fits, and so does the number of open braces, for each of them was read. Lines and
columns count from 1 on, so there are two kinds of documents in which they do not fit: the
longest one that has line feeds only, and the longest ones that are a single line of ASCII
characters. A walk that keeps its position in 32 bits fails in just these documents. Groups
are counted with a sign, which leaves half as much room. They fit in every script of less than
2 GiB, and in a longer one exactly as far as its brackets nest (`counters_fit`).
-/

namespace Polyglot

open EncodingIssue (sizeLimit)

variable {text : List Char} {p : Position}

/-- A number fits into 32 bits with a sign. -/
def FitsSigned (n : Int) : Prop := -0x80000000 ≤ n ∧ n < 0x80000000

theorem size_eq_sizeLimit : UInt32.size = sizeLimit + 1 := rfl

theorem le_sizeLimit (h : EncodingIssue.isOversized text = false) :
    byteLength text ≤ sizeLimit := by
  by_contra hlarge
  rw [EncodingIssue.isOversized, EncodingIssue.all, if_pos (Nat.lt_of_not_le hlarge)] at h
  cases h

theorem length_le_byteLength (text : List Char) : text.length ≤ byteLength text := by
  induction text with
  | nil => exact Nat.le_refl 0
  | cons ch text ih =>
    have hch := ch.utf8Size_pos
    rw [List.length_cons, byteLength_cons]
    omega

theorem byteLength_replicate {ch : Char} (hch : ch.utf8Size = 1) (n : Nat) :
    byteLength (List.replicate n ch) = n := by
  induction n with
  | zero => rfl
  | succ n ih => rw [List.replicate_succ, byteLength_cons, ih, hch, Nat.add_comm]

namespace Position

/-! ## Computed positions -/

/-- A walk over the document byte by byte gets there. -/
def ReadTo (text : List Char) (p : Position) : Prop :=
  ∃ bytes, bytes <+: utf8Bytes text ∧ p = bytes.foldl bump start

/-- Some moves of a cursor lead there from the start of the document. -/
def MovedTo (text : List Char) (p : Position) : Prop :=
  ∃ moves, (∀ m ∈ moves, (⟨start, text⟩ : Passage).Admits m) ∧
    p = ((⟨start, text⟩ : Passage).run moves).position

theorem readTo_of_reaches {c : Cursor} (h : (⟨start, text⟩ : Cursor).Reaches c) :
    ReadTo text c.position := by
  obtain ⟨u, hrest, hpos⟩ := h
  refine ⟨utf8Bytes u, ?_, ?_⟩
  · rw [show text = u ++ c.rest from hrest, utf8Bytes, utf8Bytes, List.flatMap_append]
    exact List.prefix_append _ _
  · rw [foldl_bump]
    exact hpos

theorem MovedTo.readTo (h : MovedTo text p) : ReadTo text p := by
  obtain ⟨moves, hmoves, rfl⟩ := h
  obtain ⟨d, hd, hreach⟩ := Passage.reaches_foldl (.refl (⟨start, text⟩ : Passage).cursor) hmoves
  rw [Passage.run, hd]
  exact readTo_of_reaches hreach

theorem readTo_end (text : List Char) : ReadTo text (start.advanceOver text) :=
  readTo_of_reaches (Cursor.reaches_toEnd ⟨start, text⟩)

theorem readTo_of_pointsInto (h : PointsInto text p) : ReadTo text p := by
  obtain ⟨before, behind, htext, rfl, -⟩ := h.isShown
  exact readTo_of_reaches (c := ⟨start.advanceOver before, behind⟩) ⟨before, htext, rfl⟩

theorem movedTo_end (text : List Char) : MovedTo text (start.advanceOver text) := by
  let whole : Passage := ⟨start, text⟩
  refine ⟨[.jumpTo whole.endOffset], ?_, ?_⟩
  · rw [List.forall_mem_singleton]
    exact .inr (.inl (Nat.le_refl _))
  · have hjump : (ByteCursor.ofCursor whole.cursor).jumpTo whole.endOffset =
        .ofCursor whole.cursor.toEnd := ByteCursor.jumpTo_of_endOffset_le (Nat.le_refl _)
    change _ = ((ByteCursor.ofCursor whole.cursor).jumpTo whole.endOffset).position
    rw [hjump]
    rfl

/-- A scan leads there: a fragment or a minimal unit begins or stops there, or what was found
stands there. -/
def ScannedTo (options : Options) (text : List Char) (p : Position) : Prop :=
  ∃ scan, Scan.ofText? options text = .ok scan ∧
    ((∃ f ∈ scan.fragments ++ scan.minimalUnits, p = f.start ∨ p = f.stop) ∨
      (∃ e ∈ scan.log.errors, p = e.position) ∨ ∃ w ∈ scan.log.warnings, p = w.position)

/-- The fragments of a scan tile the document, and so do its units. -/
theorem tiles_scan (options : Options) (text : List Char) {fs : List Fragment}
    (hfs : fs = (Scan.ofText options text).fragments ∨
      fs = (Scan.ofText options text).minimalUnits) :
    ∃ e, e.rest = [] ∧ Fragment.Tiles (fun _ => True) ⟨.start, text⟩ fs e := by
  rcases hfs with rfl | rfl
  · exact Scan.fragments_tiles options text
  · obtain ⟨units, htake, -, hunits⟩ := Scan.takeUnits_spec (Scan.ofText options text)
    rw [Scan.minimalUnits, htake]
    exact Scan.units_tiles options text hunits

theorem ScannedTo.readTo {options : Options} (h : ScannedTo options text p) : ReadTo text p := by
  obtain ⟨scan, hscan, hfound⟩ := h
  have hsize := Scan.isOversized_of_ok hscan
  obtain rfl := Scan.eq_ofText hscan
  rcases hfound with ⟨f, hf, hp⟩ | ⟨e, he, rfl⟩ | ⟨w, hw, rfl⟩
  · obtain ⟨fs, hfs, hmem⟩ : ∃ fs, (fs = (Scan.ofText options text).fragments ∨
        fs = (Scan.ofText options text).minimalUnits) ∧ f ∈ fs := by
      rcases List.mem_append.1 hf with hf | hf
      · exact ⟨_, .inl rfl, hf⟩
      · exact ⟨_, .inr rfl, hf⟩
    obtain ⟨e, -, htiles⟩ := tiles_scan options text hfs
    obtain ⟨a, b, hcovers, -, -, hstart, -⟩ := htiles.exists_covers hmem
    rcases hp with rfl | rfl
    · exact hcovers.start ▸ readTo_of_reaches hstart
    · exact hcovers.stop ▸ readTo_of_reaches (hstart.trans ⟨_, hcovers.read⟩)
  · exact readTo_of_pointsInto (Scan.errors_pointInto hsize he)
  · exact readTo_of_pointsInto (Scan.warnings_pointInto hsize hw)

/-- The last fragment of a document that has text stops where the document ends. -/
theorem scannedTo_end (options : Options) (htext : text ≠ [])
    (hsize : byteLength text ≤ sizeLimit) : ScannedTo options text (start.advanceOver text) := by
  refine ⟨_, Scan.ofText?_eq_ok options htext hsize, .inl ?_⟩
  obtain ⟨e, hend, htiles⟩ := Scan.fragments_tiles options text
  have hread := htiles.consumes
  obtain ⟨f, hf⟩ : ∃ f, (Scan.ofText options text).fragments.getLast? = some f := by
    rw [← Option.isSome_iff_exists, List.getLast?_isSome]
    intro hnil
    rw [hnil] at hread
    exact htext (by simpa [hend] using hread.1)
  refine ⟨f, List.mem_append_left _ (List.mem_of_getLast? hf), .inr ?_⟩
  have hwhole := hread.1
  rw [hend, List.append_nil] at hwhole
  rw [htiles.stop_eq f hf, hread.2, ← hwhole]

/-! ## How far they go -/

theorem ReadTo.offset_le (h : ReadTo text p) : p.offset ≤ byteLength text := by
  obtain ⟨bytes, hbytes, rfl⟩ := h
  rw [← leap_eq_foldl, ← length_utf8Bytes]
  exact (Nat.zero_add _).trans_le hbytes.length_le

theorem count_utf8Bytes (text : List Char) : (utf8Bytes text).count 0x0A = text.count '\n' := by
  have hline := line_advanceOver text
  rw [← leap_eq] at hline
  have hleap : (start.leap (utf8Bytes text)).line = 1 + (utf8Bytes text).count 0x0A := rfl
  omega

theorem ReadTo.line_le (h : ReadTo text p) : p.line ≤ text.count '\n' + 1 := by
  obtain ⟨bytes, hbytes, rfl⟩ := h
  rw [← leap_eq_foldl, ← count_utf8Bytes, Nat.add_comm]
  exact Nat.add_le_add_left (hbytes.count_le 0x0A) 1

theorem lastLine_eq_self (h : '\n' ∉ text) : lastLine text = text := by
  have hall : text.reverse.takeWhile (· != '\n') = text.reverse := by
    rw [List.takeWhile_eq_self_iff]
    intro ch hch
    rw [bne_iff_ne]
    rintro rfl
    exact h (List.mem_reverse.1 hch)
  rw [lastLine, hall, List.reverse_reverse]

/-- Behind a line feed the column counts less than all bytes. In front of the first one it
counts the characters, and these are as many as the bytes only in a line of ASCII. -/
theorem ReadTo.column_le (h : ReadTo text p) :
    p.column ≤ byteLength text ∨
      p.column = text.length + 1 ∧ text.length = byteLength text ∧ '\n' ∉ text := by
  obtain ⟨bytes, hbytes, rfl⟩ := h
  have hlength : bytes.length ≤ byteLength text := length_utf8Bytes text ▸ hbytes.length_le
  rw [← leap_eq_foldl]
  by_cases hfeed : 0x0A ∈ bytes
  · left
    have hlast : (bytes.rtakeWhile (· != 0x0A)).length < bytes.length := by
      refine Nat.lt_of_le_of_ne (List.rtakeWhile_suffix _ _).length_le fun heq => ?_
      have hall := (List.rtakeWhile_suffix _ bytes).eq_of_length heq
      have hkept := List.mem_rtakeWhile_imp (hall ▸ hfeed)
      simp at hkept
    have hchars : countChars (bytes.rtakeWhile (· != 0x0A)) ≤ _ := List.countP_le_length
    have hcolumn : (start.leap bytes).column =
        1 + countChars (bytes.rtakeWhile (· != 0x0A)) := if_pos hfeed
    omega
  · have hchars : countChars bytes ≤ bytes.length := List.countP_le_length
    have hcolumn : (start.leap bytes).column = 1 + countChars bytes := if_neg hfeed
    by_cases hless : countChars bytes < byteLength text
    · left
      omega
    · -- as many characters as bytes: all bytes were read, and each of them is a character
      right
      have hwhole : bytes = utf8Bytes text :=
        hbytes.eq_of_length (by rw [length_utf8Bytes]; omega)
      have hline : '\n' ∉ text := by
        rw [← List.count_eq_zero, ← count_utf8Bytes, List.count_eq_zero]
        exact hwhole ▸ hfeed
      have hend := column_advanceOver text
      rw [lastLine_eq_self hline, ← leap_eq, ← hwhole, hcolumn] at hend
      exact ⟨hend ▸ hcolumn, by omega, hline⟩

/-- What is computed fits into 32 bits: all of the offsets, and lines and columns but for one
kind of documents each. -/
structure Fit (text : List Char) (computed : Position → Prop) : Prop where
  offsets : ∀ p, computed p → p.offset < UInt32.size
  lines : (∀ p, computed p → p.line < UInt32.size) ↔ text ≠ List.replicate sizeLimit '\n'
  columns : (∀ p, computed p → p.column < UInt32.size) ↔
    ¬ (text.length = sizeLimit ∧ '\n' ∉ text)

theorem eq_replicate_of_count (hcount : sizeLimit ≤ text.count '\n')
    (hsize : byteLength text ≤ sizeLimit) : text = List.replicate sizeLimit '\n' := by
  have hchars := length_le_byteLength text
  have hfeeds : text.count '\n' ≤ text.length := List.count_le_length
  have hall := List.count_eq_length.1 (Nat.le_antisymm hfeeds (by omega))
  exact List.eq_replicate_iff.2 ⟨by omega, fun ch hch => (hall ch hch).symm⟩

theorem fit {computed : Position → Prop} (hread : ∀ p, computed p → ReadTo text p)
    (hend : text ≠ [] → computed (start.advanceOver text)) (hsize : byteLength text ≤ sizeLimit) :
    Fit text computed where
  offsets p hp := Nat.lt_succ_of_le ((hread p hp).offset_le.trans hsize)
  lines := by
    constructor
    · rintro hfit rfl
      have htext : List.replicate sizeLimit '\n' ≠ [] := by
        rw [ne_eq, List.replicate_eq_nil_iff]
        exact Nat.succ_ne_zero _
      have hline := hfit _ (hend htext)
      rw [line_advanceOver, List.count_replicate_self] at hline
      exact Nat.lt_irrefl _ hline
    · intro hne p hp
      have hcount : text.count '\n' < sizeLimit := by
        by_contra hlarge
        exact hne (eq_replicate_of_count (Nat.le_of_not_lt hlarge) hsize)
      exact (hread p hp).line_le.trans_lt (Nat.succ_lt_succ hcount)
  columns := by
    constructor
    · rintro hfit ⟨hlength, hline⟩
      have htext : text ≠ [] := List.ne_nil_of_length_pos (hlength ▸ Nat.succ_pos _)
      have hcolumn := hfit _ (hend htext)
      rw [column_advanceOver, lastLine_eq_self hline, hlength] at hcolumn
      exact Nat.lt_irrefl _ hcolumn
    · intro hnot p hp
      rcases (hread p hp).column_le with hle | ⟨hcolumn, hlength, hline⟩
      · exact Nat.lt_succ_of_le (hle.trans hsize)
      · have hless : text.length < sizeLimit :=
          Nat.lt_of_le_of_ne (hlength ▸ hsize) fun heq => hnot ⟨heq, hline⟩
        rw [hcolumn]
        exact Nat.succ_lt_succ hless

end Position

namespace PackedPosition

/-- A packed position gets to the end of a text if the numbers fit behind each of its bytes, and
then it is the position there. -/
theorem advanceOver?_eq_some_iff {p q : PackedPosition} : p.advanceOver? text = some q ↔
    q.unpack = p.unpack.advanceOver text ∧
      ∀ read, read <+: utf8Bytes text → (read.foldl Position.bump p.unpack).Fits := by
  rw [advanceOver?, foldlM_bump?_eq_some_iff, Position.foldl_bump]

/-- From the start it does not get to the end in two kinds of documents only. -/
theorem advanceOver?_start_eq_none_iff (hsize : byteLength text ≤ sizeLimit) :
    start.advanceOver? text = none ↔
      text = List.replicate sizeLimit '\n' ∨ text.length = sizeLimit ∧ '\n' ∉ text := by
  have hfit : Position.Fit text (Position.ReadTo text) :=
    Position.fit (fun _ hp => hp) (fun _ => Position.readTo_end text) hsize
  have hread : (∀ read, read <+: utf8Bytes text → (read.foldl Position.bump .start).Fits) ↔
      (∀ p, Position.ReadTo text p → p.line < UInt32.size) ∧
        ∀ p, Position.ReadTo text p → p.column < UInt32.size := by
    constructor
    · intro hfits
      constructor
      · rintro _ ⟨read, hread, rfl⟩
        exact (hfits read hread).2.1
      · rintro _ ⟨read, hread, rfl⟩
        exact (hfits read hread).2.2
    · rintro ⟨hlines, hcolumns⟩ read hread
      have hp : Position.ReadTo text (read.foldl Position.bump .start) := ⟨read, hread, rfl⟩
      exact ⟨hfit.offsets _ hp, hlines _ hp, hcolumns _ hp⟩
  rw [hfit.lines, hfit.columns] at hread
  rw [Option.eq_none_iff_forall_ne_some, ← not_iff_not, not_or, ← ne_eq, ← hread]
  constructor
  · intro hsome
    obtain ⟨q, hq⟩ := not_forall_not.1 hsome
    exact (advanceOver?_eq_some_iff.1 hq).2
  · intro hfits
    -- the position at the end fits too, so it can be stored
    have hend : (Position.start.advanceOver text).Fits :=
      Position.foldl_bump .start text ▸ hfits _ List.prefix_rfl
    obtain ⟨q, hq⟩ : ∃ q, (Position.start.advanceOver text).pack? = some q := ⟨_, if_pos hend⟩
    exact not_forall_not.2 ⟨q, advanceOver?_eq_some_iff.2 ⟨pack?_eq_some_iff.1 hq, hfits⟩⟩

end PackedPosition

/-! ## Open braces -/

namespace Cursor

variable {set : GuardSet} {depth n : Nat} {c d : Cursor}

/-- The search for the brace that closes the outermost of `depth` open ones gets from `c` to
`d`, where `n` are open. -/
inductive Searches (set : GuardSet) : Nat → Cursor → Nat → Cursor → Prop where
  | refl (depth : Nat) (c : Cursor) : Searches set depth c depth c
  | region {depth n : Nat} {c d : Cursor} {kind : GuardKind} {after : c.Later}
      (ahead : c.front set = .region kind after) (more : Searches set depth after.cursor n d) :
      Searches set depth c n d
  | opening {depth n : Nat} {c d : Cursor} {after : c.Later}
      (ahead : c.front set = .code '{' after) (more : Searches set (depth + 1) after.cursor n d) :
      Searches set depth c n d
  | closing {depth n : Nat} {c d : Cursor} {after : c.Later}
      (ahead : c.front set = .code '}' after) (inner : 1 < depth)
      (more : Searches set (depth - 1) after.cursor n d) : Searches set depth c n d
  | other {depth n : Nat} {c d : Cursor} {ch : Char} {after : c.Later}
      (ahead : c.front set = .code ch after) (noBrace : ch ≠ '{' ∧ ch ≠ '}')
      (more : Searches set depth after.cursor n d) : Searches set depth c n d

/-- What the search comes to is decided from any place on that it gets to. -/
theorem Searches.closeFrom_eq (h : Searches set depth c n d) :
    closeFrom set depth c = closeFrom set n d := by
  induction h with
  | refl => rfl
  | region ahead _ ih => rw [closeFrom, ahead, ← ih]
  | opening ahead _ ih => rw [closeFrom, ahead, ← ih]; rfl
  | closing ahead inner _ ih =>
    rw [closeFrom, ahead, ← ih]
    simp [Nat.not_le_of_lt inner]
  | other ahead noBrace _ ih =>
    rw [closeFrom, ahead, ← ih]
    simp [noBrace]

/-- The search gets to where it halts. -/
theorem exists_searches (set : GuardSet) (depth : Nat) (c : Cursor) :
    ∃ n d, Searches set depth c n d ∧ Halts set n d (closeFrom set depth c) := by
  fun_induction closeFrom set depth c with
  | case1 depth c ahead => exact ⟨depth, c, .refl depth c, .finish ahead⟩
  | case2 depth c issue atEnd ahead => exact ⟨depth, c, .refl depth c, .openRegion ahead⟩
  | case3 depth c kind after ahead ih =>
    obtain ⟨n, d, hmore, hhalts⟩ := ih
    exact ⟨n, d, .region ahead hmore, hhalts⟩
  | case4 depth c after ahead ih =>
    obtain ⟨n, d, hmore, hhalts⟩ := ih
    exact ⟨n, d, .opening ahead hmore, hhalts⟩
  | case5 depth c after last ahead => exact ⟨depth, c, .refl depth c, .closed last ahead⟩
  | case6 depth c after inner ahead _ ih =>
    obtain ⟨n, d, hmore, hhalts⟩ := ih
    exact ⟨n, d, .closing ahead (Nat.lt_of_not_le inner) hmore, hhalts⟩
  | case7 depth c ch after ahead hopen hclose ih =>
    obtain ⟨n, d, hmore, hhalts⟩ := ih
    exact ⟨n, d, .other ahead ⟨hopen, hclose⟩ hmore, hhalts⟩

/-- One brace at least is open, and each one more was read. -/
theorem Searches.bounds (h : Searches set depth c n d) (hdepth : 1 ≤ depth) :
    1 ≤ n ∧ n + d.rest.length ≤ depth + c.rest.length := by
  induction h with
  | refl => exact ⟨hdepth, Nat.le_refl _⟩
  | @region depth n c d kind after ahead more ih =>
    have hless := after.length_lt
    have hmore := ih hdepth
    omega
  | @opening depth n c d after ahead more ih =>
    have hless := after.length_lt
    have hmore := ih (by omega)
    omega
  | @closing depth n c d after ahead inner more ih =>
    have hless := after.length_lt
    have hmore := ih (by omega)
    omega
  | @other depth n c d ch after ahead noBrace more ih =>
    have hless := after.length_lt
    have hmore := ih hdepth
    omega

/-- How many braces are left open is what the search has counted in the end. -/
theorem exists_searches_of_error {u : Unbalanced} (h : c.matchingClose set = .error u) :
    ∃ d, Searches set 1 c.advance u.depth d := by
  unfold matchingClose at h
  split at h
  · cases h
    exact ⟨_, .refl 1 _⟩
  · next ch rest hrest =>
    have hinside : c.advance = (c.next ch rest hrest).cursor := by simp [advance, hrest, next]
    obtain ⟨n, d, hsearch, hhalts⟩ := exists_searches set 1 c.advance
    rw [hinside] at hsearch hhalts ⊢
    simp only at h
    split at h
    · cases h
    · next depth issue herror =>
      cases h
      rw [herror] at hhalts
      cases hhalts with
      | finish | openRegion => exact ⟨d, hsearch⟩

theorem Reaches.length_le (h : c.Reaches d) : d.rest.length ≤ c.rest.length := by
  obtain ⟨u, hu⟩ := h
  exact hu.length_le

/-- A search begins behind a brace, so its own counts for the one character that was read. -/
theorem Searches.le_length (h : Searches set 1 c.advance n d) : n ≤ max 1 c.rest.length := by
  have hbounds := (h.bounds (Nat.le_refl 1)).2
  cases hrest : c.rest with
  | nil =>
    have hstay : c.advance.rest.length ≤ 0 := by
      simpa [hrest] using c.reaches_advance.length_le
    omega
  | cons ch rest =>
    have hadvance : c.advance.rest = rest := by
      rw [advance, hrest]
    rw [hadvance] at hbounds
    rw [List.length_cons]
    omega

end Cursor

theorem Cursor.Passes.length_le {set : GuardSet} {c d : Cursor} {code : List Char}
    (h : c.Passes set code d) : code.length + d.rest.length ≤ c.rest.length := by
  induction h with
  | refl => simp
  | @region c d kind after code ahead more ih => exact ih.trans after.length_lt.le
  | @code c d ch after code ahead more ih =>
    have hless := after.length_lt
    rw [List.length_cons]
    omega

/-- What was read up to a place is the same whenever one gets there. -/
theorem Cursor.Passes.code_unique {set : GuardSet} {c d : Cursor} {u v : List Char}
    (h : c.Passes set u d) (k : c.Passes set v d) : u = v := by
  have hnil : ∀ {w}, d.Passes set w d → w = [] := by
    intro w hw
    have hlength := hw.length_le
    exact List.length_eq_zero_iff.1 (by omega)
  rcases h.linear k with ⟨w, rfl, hw⟩ | ⟨w, rfl, hw⟩
  · rw [hnil hw, List.append_nil]
  · rw [hnil hw, List.append_nil]

namespace StatementState

variable {s : StatementState} {c d : Cursor} {cuts : List Cursor} {code : List Char}

/-! ## Open groups -/

theorem groupDepth_append (u v : List Char) :
    groupDepth (u ++ v) = groupDepth u + groupDepth v := by
  induction u with
  | nil => simp
  | cons ch u ih => rw [List.cons_append, groupDepth_cons, groupDepth_cons, ih, Int.add_assoc]

theorem groupDepth_bounds (code : List Char) :
    -code.length ≤ groupDepth code ∧ groupDepth code ≤ code.length := by
  induction code with
  | nil => simp
  | cons ch code ih =>
    have hchange : -1 ≤ groupChange ch ∧ groupChange ch ≤ 1 := by
      unfold groupChange
      split
      · decide
      · split <;> decide
    rw [groupDepth_cons, List.length_cons]
    push_cast
    omega

theorem braces_count_le (s : StatementState) (ch : Char) : (s.count ch).braces ≤ s.braces + 1 := by
  unfold count
  split <;> simp only <;> omega

theorem braces_countAll_le (s : StatementState) (code : List Char) :
    (s.countAll code).braces ≤ s.braces + code.length := by
  induction code generalizing s with
  | nil => exact Nat.le_refl _
  | cons ch code ih =>
    have hall : (s.countAll (ch :: code)).braces = ((s.count ch).countAll code).braces := rfl
    have hone := s.braces_count_le ch
    have hmore := ih (s.count ch)
    rw [hall, List.length_cons]
    omega

/-- The search for cuts has counted the brackets of the code that it has read. -/
theorem Runs.counted (h : Runs .initial c s d cuts) :
    ∃ code, c.Passes .script code d ∧ s.groups = groupDepth code ∧ s.braces ≤ code.length := by
  obtain ⟨code, hread, hbraces, hgroups⟩ := h.passes
  refine ⟨code, hread, ?_, ?_⟩
  · rw [hgroups, groups_countAll]
    exact Int.zero_add _
  · rw [hbraces, ← Nat.zero_add code.length]
    exact braces_countAll_le .initial code

/-- Wherever a script can be read to, the search once has the groups open that are open there. -/
theorem exists_groups (h : c.Passes .script code d) :
    ∃ s e cuts, Runs .initial c s e cuts ∧ s.groups = groupDepth code := by
  -- the search does not stop inside of a name, but a name opens no group
  obtain ⟨name, -, hname, hpast⟩ := Cursor.passes_eatWhile_isNamePart d
  have hread := h.trans hpast
  have hnext : ∀ ch ∈ (d.eatWhile isNamePart).rest.head?, isNamePart ch = false := by
    intro ch hch
    have hstop := List.head?_dropWhile_not isNamePart d.rest
    rw [Cursor.eatWhile, Cursor.eatWhileFrom_eq, Option.mem_def] at hch
    rwa [hch] at hstop
  obtain ⟨t, f, all, hall, -, hstop⟩ := exists_runs .initial c
  obtain ⟨s, cuts, hruns⟩ := hall.exists_at hstop hread hnext
  obtain ⟨code', hread', hgroups, -⟩ := hruns.counted
  have hflat : groupDepth name = 0 :=
    groupDepth_of_isFlat fun ch hch => isFlat_of_isNamePart (hname ch hch)
  refine ⟨s, _, cuts, hruns, ?_⟩
  rw [hgroups, hread'.code_unique hread, groupDepth_append, hflat, Int.add_zero]

theorem groups_fit_iff (c : Cursor) :
    (∀ s d cuts, Runs .initial c s d cuts → FitsSigned s.groups) ↔
      ∀ code d, c.Passes .script code d → FitsSigned (groupDepth code) := by
  constructor
  · intro hfit code d hread
    obtain ⟨s, e, cuts, hruns, hgroups⟩ := exists_groups hread
    exact hgroups ▸ hfit s e cuts hruns
  · intro hfit s d cuts hruns
    obtain ⟨code, hread, hgroups, -⟩ := hruns.counted
    exact hgroups ▸ hfit code d hread

end StatementState

/-! ## All counters -/

/-- The counters of a document fit, but for those of which it says when they do. -/
structure CountersFit (text : List Char) : Prop where
  /-- Positions may be read byte by byte, be those of a cursor after any moves, or be what a
  scan has found, under any options. -/
  read : Position.Fit text (Position.ReadTo text)
  moved : Position.Fit text (Position.MovedTo text)
  scanned : ∀ options, Position.Fit text (Position.ScannedTo options text)
  /-- A walk in 32 bits fails in the same documents. -/
  failed : PackedPosition.start.advanceOver? text = none ↔
    text = List.replicate sizeLimit '\n' ∨ text.length = sizeLimit ∧ '\n' ∉ text
  /-- Otherwise it ends where the document ends. -/
  stored : ∀ q, PackedPosition.start.advanceOver? text = some q →
    q.unpack = Position.start.advanceOver text
  /-- The search for a closing brace, from any place on, goes on with the count that it has,
  and that is one open brace at least. -/
  depths : ∀ set c, (⟨.start, text⟩ : Cursor).Reaches c → ∀ n d,
    Cursor.Searches set 1 c.advance n d →
    Cursor.closeFrom set 1 c.advance = Cursor.closeFrom set n d ∧ 1 ≤ n ∧ n < UInt32.size
  /-- It reports how many it has counted, if it fails. -/
  reported : ∀ set c u, (⟨.start, text⟩ : Cursor).Reaches c →
    c.matchingClose set = .error u → 1 ≤ u.depth ∧ u.depth < UInt32.size
  /-- The search for the cuts of a script counts braces and groups. The script is a part of
  the document, and may have any place in it. -/
  braces : ∀ script, script <:+: text → ∀ pos s d cuts,
    StatementState.Runs .initial ⟨pos, script⟩ s d cuts → s.braces < UInt32.size
  /-- The count of groups fits exactly if the groups that are open fit at every place of the
  script. -/
  groups : ∀ script, script <:+: text → ∀ pos,
    (∀ s d cuts, StatementState.Runs .initial ⟨pos, script⟩ s d cuts →
      FitsSigned s.groups) ↔
    ∀ code d, (⟨pos, script⟩ : Cursor).Passes .script code d →
      FitsSigned (StatementState.groupDepth code)
  /-- So it is in every script of less than 2 GiB. -/
  groups_short : ∀ script, script <:+: text → script.length < 0x80000000 → ∀ pos s d cuts,
    StatementState.Runs .initial ⟨pos, script⟩ s d cuts → FitsSigned s.groups

theorem depth_fits (hsize : byteLength text ≤ sizeLimit) {set : GuardSet} {c d : Cursor} {n : Nat}
    (hreach : (⟨.start, text⟩ : Cursor).Reaches c) (h : Cursor.Searches set 1 c.advance n d) :
    1 ≤ n ∧ n < UInt32.size := by
  have hleft : c.rest.length ≤ text.length := hreach.length_le
  have hlength := (length_le_byteLength text).trans hsize
  have hlimit : 1 ≤ sizeLimit := by decide
  have hcount := h.le_length
  refine ⟨(h.bounds (Nat.le_refl 1)).1, ?_⟩
  rw [size_eq_sizeLimit]
  omega

/-- In a document that is not too large offsets and braces always fit. Lines and columns fit
unless it is one of the longest documents, of line feeds only or without any. Groups fit as
far as the code of the script nests them. -/
theorem counters_fit (h : EncodingIssue.isOversized text = false) : CountersFit text where
  read := Position.fit (fun _ hp => hp) (fun _ => Position.readTo_end text) (le_sizeLimit h)
  moved := Position.fit (fun _ hp => hp.readTo) (fun _ => Position.movedTo_end text)
    (le_sizeLimit h)
  scanned options := Position.fit (fun _ hp => hp.readTo)
    (fun htext => Position.scannedTo_end options htext (le_sizeLimit h)) (le_sizeLimit h)
  failed := PackedPosition.advanceOver?_start_eq_none_iff (le_sizeLimit h)
  stored q hq := (PackedPosition.advanceOver?_eq_some_iff.1 hq).1
  depths set c hreach n d hsearch :=
    ⟨hsearch.closeFrom_eq, depth_fits (le_sizeLimit h) hreach hsearch⟩
  reported set c u hreach herror := by
    obtain ⟨d, hsearch⟩ := Cursor.exists_searches_of_error herror
    exact depth_fits (le_sizeLimit h) hreach hsearch
  braces script hscript pos s d cuts hruns := by
    obtain ⟨code, hread, -, hbraces⟩ := hruns.counted
    have hcode : code.length + d.rest.length ≤ script.length := hread.length_le
    have hlength := hscript.length_le.trans ((length_le_byteLength text).trans (le_sizeLimit h))
    rw [size_eq_sizeLimit]
    omega
  groups script _ pos := StatementState.groups_fit_iff ⟨pos, script⟩
  groups_short script _ hshort pos s d cuts hruns := by
    obtain ⟨code, hread, hgroups, -⟩ := hruns.counted
    have hcode : code.length + d.rest.length ≤ script.length := hread.length_le
    have hbounds := StatementState.groupDepth_bounds code
    rw [hgroups, FitsSigned]
    omega

/-- Braces, groups and line feeds of a short document. -/
theorem counters_fit_script :
    let text := "script \x7b\n  f(a[0]);\n\x7d".toList
    EncodingIssue.isOversized text = false ∧ CountersFit text := by
  intro text
  have hsize : EncodingIssue.isOversized text = false := by decide
  exact ⟨hsize, counters_fit hsize⟩

/-! ## The documents named -/

theorem passes_openings (n : Nat) :
    (⟨.start, List.replicate n '('⟩ : Cursor).Passes .script (List.replicate n '(')
      (Cursor.toEnd ⟨.start, List.replicate n '('⟩) := by
  have hplain : ∀ ch ∈ List.replicate n '(', GuardSet.script.Plain ch := by
    intro ch hch
    rw [List.eq_of_mem_replicate hch]
    exact GuardSet.plain_of (by decide) (by decide) (.inr rfl)
  exact Cursor.Consumes.passes_of_plain ⟨(List.append_nil _).symm, rfl⟩ hplain

theorem groupDepth_openings (n : Nat) :
    StatementState.groupDepth (List.replicate n '(') = n := by
  induction n with
  | zero => rfl
  | succ n ih =>
    rw [List.replicate_succ, StatementState.groupDepth_cons, ih]
    change 1 + (n : Int) = _
    push_cast
    omega

/-- None of them is too large: neither the line behind 4294967295 line feeds can be stored nor
the column behind as many spaces. 2147483648 opening parentheses are more than the search for
cuts can count. -/
theorem unfitting_admitted :
    (EncodingIssue.isOversized (List.replicate sizeLimit '\n') = false ∧
      PackedPosition.start.advanceOver? (List.replicate sizeLimit '\n') = none) ∧
    (EncodingIssue.isOversized (List.replicate sizeLimit ' ') = false ∧
      PackedPosition.start.advanceOver? (List.replicate sizeLimit ' ') = none) ∧
    EncodingIssue.isOversized (List.replicate 0x80000000 '(') = false ∧
      ∃ s d cuts, StatementState.Runs .initial ⟨.start, List.replicate 0x80000000 '('⟩ s d cuts ∧
        ¬ FitsSigned s.groups := by
  have hadmitted : ∀ {ch : Char} {n : Nat}, ch.utf8Size = 1 → n ≤ sizeLimit →
      EncodingIssue.isOversized (List.replicate n ch) = false := by
    intro ch n hch hn
    exact Scan.isOversized_eq_false ((byteLength_replicate hch n).trans_le hn)
  have hsize : ∀ {ch : Char}, ch.utf8Size = 1 →
      byteLength (List.replicate sizeLimit ch) ≤ sizeLimit :=
    fun hch => Nat.le_of_eq (byteLength_replicate hch _)
  have hspaces : '\n' ∉ List.replicate sizeLimit ' ' := fun h => by
    cases List.eq_of_mem_replicate h
  refine ⟨⟨hadmitted rfl (Nat.le_refl _), ?feeds⟩, ⟨hadmitted rfl (Nat.le_refl _), ?spaces⟩,
    hadmitted rfl (by decide), ?groups⟩
  case feeds => exact (PackedPosition.advanceOver?_start_eq_none_iff (hsize rfl)).2 (.inl rfl)
  case spaces =>
    exact (PackedPosition.advanceOver?_start_eq_none_iff (hsize rfl)).2
      (.inr ⟨List.length_replicate, hspaces⟩)
  case groups =>
    obtain ⟨s, d, cuts, hruns, hgroups⟩ :=
      StatementState.exists_groups (passes_openings 0x80000000)
    refine ⟨s, d, cuts, hruns, fun hfit => ?_⟩
    rw [hgroups, groupDepth_openings] at hfit
    exact absurd hfit.2 (by decide)

end Polyglot
