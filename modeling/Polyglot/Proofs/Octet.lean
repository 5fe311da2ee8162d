-- SUMMARY: What is searched for and cut off by bytes is found and cut off between characters.
import Polyglot.Proofs.Grouping
import Polyglot.Proofs.Motion
import Polyglot.Proofs.Statement

/-!
# Texts cut by bytes

A window is a number of bytes, and may end inside a character. Then its end is moved, one
byte at a time, until it is between two characters (`boundaryBehind`, `boundaryBefore`). And a
text can be searched byte by byte for ASCII characters, since no byte of a longer character is
one. So none of the slices that are taken divides a character: each is there, and is what the
text holds between two characters.
-/

namespace Polyglot

variable {p : Char → Bool} {ch : Char} {m n window : Nat} {text u v : List Char}

/-! ## Slices -/

theorem dropExactly_append (u v : List Char) :
    Passage.dropExactly (byteLength u) (u ++ v) = some v := by
  simp [Passage.dropExactly]

theorem takeExactly_append (u v : List Char) :
    Passage.takeExactly (byteLength u) (u ++ v) = some u := by
  simp [Passage.takeExactly, takeBytes_byteLength]

/-! ## Windows -/

/-- The offset is between two characters of a text, or at one of its ends. -/
def isCharBoundary (text : List Char) (n : Nat) : Bool := byteLength (takeBytes n text) = n

theorem isCharBoundary_iff : isCharBoundary text n ↔ ∃ u v, text = u ++ v ∧ byteLength u = n := by
  rw [isCharBoundary, decide_eq_true_eq]
  constructor
  · exact fun h => ⟨_, _, (splitBytes_append n text).symm, h⟩
  · rintro ⟨u, v, rfl, rfl⟩
    rw [takeBytes_byteLength]

/-- Go on byte by byte to the next offset that is between two characters. -/
def boundaryBehind (text : List Char) (n : Nat) : Nat :=
  if isCharBoundary text n || byteLength text ≤ n then n else boundaryBehind text (n + 1)
termination_by byteLength text - n
decreasing_by
  simp only [Bool.or_eq_true, decide_eq_true_eq, not_or] at *
  omega

/-- Go back byte by byte to the next offset that is between two characters. -/
def boundaryBefore (text : List Char) : Nat → Nat
  | 0 => 0
  | n + 1 => if isCharBoundary text (n + 1) then n + 1 else boundaryBefore text n

/-- The last bytes of a text, as many as fit into a window and divide no character. -/
def tailWindow? (window : Nat) (text : List Char) : Option (List Char) :=
  Passage.dropExactly (boundaryBehind text (byteLength text - window)) text

/-- The first bytes of a text, as many as fit into a window and divide no character. -/
def headWindow? (window : Nat) (text : List Char) : Option (List Char) :=
  Passage.takeExactly (boundaryBefore text (min window (byteLength text))) text

theorem le_byteLength_of_isCharBoundary (h : isCharBoundary text n) : n ≤ byteLength text := by
  obtain ⟨u, v, rfl, rfl⟩ := isCharBoundary_iff.1 h
  rw [byteLength_append]
  exact Nat.le_add_right _ _

theorem boundaryBehind_eq (hle : n ≤ m) (hm : isCharBoundary text m)
    (hnext : ∀ k, n ≤ k → isCharBoundary text k → m ≤ k) : boundaryBehind text n = m := by
  fun_induction boundaryBehind text n with
  | case1 n hstop =>
    have hend := le_byteLength_of_isCharBoundary hm
    rw [Bool.or_eq_true, decide_eq_true_eq] at hstop
    rcases hstop with hboundary | hlast
    · exact Nat.le_antisymm hle (hnext n (Nat.le_refl n) hboundary)
    · omega
  | case2 n hinside ih =>
    have hne : n ≠ m := by
      rintro rfl
      simp [hm] at hinside
    exact ih (by omega) fun k hk => hnext k (by omega)

theorem boundaryBefore_eq (hle : m ≤ n) (hm : isCharBoundary text m)
    (hlast : ∀ k, k ≤ n → isCharBoundary text k → k ≤ m) : boundaryBefore text n = m := by
  induction n with
  | zero => exact (Nat.le_zero.1 hle).symm
  | succ n ih =>
    rw [boundaryBefore]
    split
    · next hboundary => exact Nat.le_antisymm (hlast (n + 1) (Nat.le_refl _) hboundary) hle
    · next hinside =>
      have hne : m ≠ n + 1 := by
        rintro rfl
        exact hinside hm
      exact ih (by omega) fun k hk => hlast k (by omega)

/-- What fits into some bytes begins a longest text that does. -/
theorem prefix_takeBytes (h : byteLength u ≤ n) (v : List Char) : u <+: takeBytes n (u ++ v) := by
  have hmono := takeBytes_mono h (u ++ v)
  rwa [takeBytes_byteLength] at hmono

theorem byteLength_takeBytes_le (n : Nat) (text : List Char) :
    byteLength (takeBytes n text) ≤ n := by
  induction text generalizing n with
  | nil => exact Nat.zero_le n
  | cons ch text ih =>
    rw [takeBytes_cons]
    split
    · have := ih (n - ch.utf8Size)
      rw [byteLength_cons]
      omega
    · exact Nat.zero_le n

theorem headWindow?_eq (window : Nat) (text : List Char) :
    headWindow? window text = some (takeBytes window text) := by
  obtain ⟨rest, hrest⟩ := Fragment.takeBytes_prefix window text
  have hfits := byteLength_takeBytes_le window text
  have hlength := congrArg byteLength hrest
  rw [byteLength_append] at hlength
  -- a boundary further on would begin a longer text that fits, and there is none
  have hboundary : boundaryBefore text (min window (byteLength text)) =
      byteLength (takeBytes window text) := by
    refine boundaryBefore_eq (by omega) (isCharBoundary_iff.2 ⟨_, rest, hrest.symm, rfl⟩) ?_
    intro k hk hboundary
    obtain ⟨u, v, rfl, rfl⟩ := isCharBoundary_iff.1 hboundary
    obtain ⟨w, hw⟩ := prefix_takeBytes (u := u) (n := window) (by omega) v
    have hlonger := congrArg byteLength hw
    rw [byteLength_append] at hlonger
    omega
  rw [headWindow?, hboundary]
  have hslice := takeExactly_append (takeBytes window text) rest
  rwa [hrest] at hslice

theorem lastBytes_suffix (n : Nat) (text : List Char) : lastBytes n text <:+ text := by
  have hprefix := Fragment.takeBytes_prefix n text.reverse
  rwa [← List.reverse_suffix, List.reverse_reverse] at hprefix

theorem tailWindow?_eq (window : Nat) (text : List Char) :
    tailWindow? window text = some (lastBytes window text) := by
  obtain ⟨rest, hrest⟩ := lastBytes_suffix window text
  have hfits : byteLength (lastBytes window text) ≤ window := by
    rw [lastBytes, byteLength_reverse]
    exact byteLength_takeBytes_le window text.reverse
  have hlength := congrArg byteLength hrest
  rw [byteLength_append] at hlength
  -- a boundary further ahead would leave more than fits, read from the end
  have hboundary : boundaryBehind text (byteLength text - window) = byteLength rest := by
    refine boundaryBehind_eq (by omega) (isCharBoundary_iff.2 ⟨rest, _, hrest.symm, rfl⟩) ?_
    intro k hk hboundary
    obtain ⟨u, v, rfl, rfl⟩ := isCharBoundary_iff.1 hboundary
    rw [byteLength_append] at hk hlength
    have hlonger : v.reverse <+: takeBytes window (u ++ v).reverse := by
      rw [List.reverse_append]
      refine prefix_takeBytes ?_ u.reverse
      rw [byteLength_reverse]
      omega
    obtain ⟨w, hw⟩ := hlonger
    have hshorter := congrArg byteLength hw
    rw [byteLength_append, byteLength_reverse, ← byteLength_reverse (takeBytes _ _),
      ← lastBytes] at hshorter
    omega
  rw [tailWindow?, hboundary]
  have hslice := dropExactly_append rest (lastBytes window text)
  rwa [hrest] at hslice

/-! ## ASCII characters by bytes -/

/-- The byte is an ASCII character of a class. -/
def byteClass (p : Char → Bool) (byte : UInt8) : Bool :=
  byte < 0x80 && p (Char.ofNat byte.toNat)

theorem utf8Bytes_cons (ch : Char) (text : List Char) :
    utf8Bytes (ch :: text) = String.utf8EncodeChar ch ++ utf8Bytes text := rfl

theorem length_utf8Bytes (text : List Char) : (utf8Bytes text).length = byteLength text := by
  induction text with
  | nil => rfl
  | cons ch text ih =>
    rw [utf8Bytes_cons, List.length_append, ih, String.length_utf8EncodeChar, byteLength_cons]

theorem drop_utf8Bytes (u v : List Char) :
    (utf8Bytes (u ++ v)).drop (byteLength u) = utf8Bytes v := by
  rw [utf8Bytes, List.flatMap_append, ← length_utf8Bytes, ← utf8Bytes, List.drop_left]
  rfl

theorem utf8EncodeChar_ascii (h : isAscii ch) :
    String.utf8EncodeChar ch = [UInt8.ofNat ch.toNat] := by
  have hsize : ch.utf8Size = 1 := by
    rw [Char.utf8Size_eq_one_iff, UInt32.le_iff_toNat_le]
    rw [isAscii, decide_eq_true_eq] at h
    exact Nat.le_of_lt_succ h
  exact String.utf8EncodeChar_eq_singleton hsize

/-- No byte of a longer character is ASCII. -/
theorem byteClass_of_mem (h : isAscii ch = false) :
    ∀ b ∈ String.utf8EncodeChar ch, byteClass p b = false := by
  obtain ⟨byte, more, hbytes, -, -, hmore⟩ := utf8EncodeChar_eq ch
  have hfirst : 0x80 ≤ byte.toNat := by
    rw [isAscii, decide_eq_false_iff_not] at h
    rcases firstByte_toNat ch with ⟨hascii, -⟩ | ⟨-, hbyte⟩
    · exact absurd hascii h
    · rwa [firstByte, hbytes] at hbyte
  have hhigh : ∀ b : UInt8, 0x80 ≤ b.toNat → byteClass p b = false := by
    intro b hb
    have hlow : ¬ b < 0x80 := by
      rw [UInt8.lt_iff_toNat_lt]
      exact Nat.not_lt.2 hb
    simp [byteClass, hlow]
  rw [hbytes]
  refine List.forall_mem_cons.2 ⟨hhigh byte hfirst, fun b hb => ?_⟩
  exact hhigh b (isInnerByte_iff.1 (hmore b hb)).1

theorem byteClass_ascii (h : isAscii ch) : byteClass p (UInt8.ofNat ch.toNat) = p ch := by
  rw [isAscii, decide_eq_true_eq] at h
  have hbyte : (UInt8.ofNat ch.toNat).toNat = ch.toNat := by
    rw [UInt8.toNat_ofNat']
    omega
  have hlow : UInt8.ofNat ch.toNat < 0x80 := by
    rw [UInt8.lt_iff_toNat_lt, hbyte]
    exact h
  rw [byteClass, hbyte, Char.ofNat_toNat, decide_eq_true hlow, Bool.true_and]

/-- The bytes of a character are all of a class, or none of them is. -/
theorem byteClass_of_mem_encode (hp : ∀ ch, p ch → isAscii ch) :
    ∀ b ∈ String.utf8EncodeChar ch, byteClass p b = p ch := by
  cases hascii : isAscii ch with
  | true =>
    rw [utf8EncodeChar_ascii hascii, List.forall_mem_singleton]
    exact byteClass_ascii hascii
  | false =>
    have hother : p ch = false := by
      rw [Bool.eq_false_iff]
      intro hch
      rw [hp ch hch] at hascii
      cases hascii
    rw [hother]
    exact byteClass_of_mem hascii

theorem takeWhile_utf8Bytes (hp : ∀ ch, p ch → isAscii ch) (text : List Char) :
    (utf8Bytes text).takeWhile (byteClass p) = utf8Bytes (text.takeWhile p) := by
  induction text with
  | nil => rfl
  | cons ch text ih =>
    have hbytes : ∀ b ∈ String.utf8EncodeChar ch, byteClass p b = p ch :=
      byteClass_of_mem_encode hp
    rw [utf8Bytes_cons, List.takeWhile_cons]
    split
    · next hch =>
      rw [List.takeWhile_append_of_pos fun b hb => (hbytes b hb).trans hch, ih, utf8Bytes_cons]
    · next hch =>
      obtain ⟨byte, more, hencode, -⟩ := utf8EncodeChar_eq ch
      have hfirst := hbytes byte (by simp [hencode])
      rw [hencode, List.cons_append, List.takeWhile_cons_of_neg (by rwa [hfirst])]
      rfl

theorem all_utf8Bytes (hp : ∀ ch, p ch → isAscii ch) (text : List Char) :
    (utf8Bytes text).all (byteClass p) = text.all p := by
  rw [Bool.eq_iff_iff, List.all_eq_true, List.all_eq_true]
  constructor
  · intro h ch hch
    obtain ⟨byte, more, hencode, -⟩ := utf8EncodeChar_eq ch
    have hbyte : byte ∈ String.utf8EncodeChar ch := by simp [hencode]
    rw [← byteClass_of_mem_encode hp byte hbyte]
    exact h byte (List.mem_flatMap.2 ⟨ch, hch, hbyte⟩)
  · intro h byte hbyte
    obtain ⟨ch, hch, hbyte⟩ := List.mem_flatMap.1 hbyte
    rw [byteClass_of_mem_encode hp byte hbyte]
    exact h ch hch

/-- The first byte that is not of a class stands where the run of the class ends. -/
theorem findIdx?_utf8Bytes (hp : ∀ ch, p ch → isAscii ch) (text : List Char) :
    (utf8Bytes text).findIdx? (fun b => !byteClass p b) =
      if text.all p then none else some (byteLength (text.takeWhile p)) := by
  have hall := all_utf8Bytes hp text
  split
  · next h =>
    rw [h, List.all_eq_true] at hall
    rw [List.findIdx?_eq_none_iff]
    exact fun b hb => by simp [hall b hb]
  · next h =>
    rw [Bool.not_eq_true] at h
    rw [h, List.all_eq_false] at hall
    obtain ⟨b, hb, hother⟩ := hall
    have hfound : (utf8Bytes text).findIdx (fun b => !byteClass p b) < (utf8Bytes text).length :=
      List.findIdx_lt_length_of_exists ⟨b, hb, by simpa using hother⟩
    have hrun := congrArg List.length (takeWhile_utf8Bytes hp text)
    rw [List.takeWhile_eq_take_findIdx_not, List.length_take, length_utf8Bytes (text.takeWhile p),
      Nat.min_eq_left (Nat.le_of_lt hfound)] at hrun
    rw [← hrun]
    exact List.findIdx?_eq_some_iff_findIdx_eq.2 ⟨hfound, rfl⟩

end Polyglot
