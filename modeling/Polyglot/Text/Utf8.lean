-- SUMMARY: The UTF-8 measure of a text: bytes of a character, byte lengths, and cuts at byte counts.

/-!
# Texts measured in UTF-8 bytes

A text is a list of characters. Offsets in a document count the bytes of its
UTF-8 form, so this module measures texts in bytes and cuts them at byte
counts. A cut never divides a character: it falls back to the boundary before.
-/

namespace Polyglot

/-! ## Bytes of a character -/

/-- The first byte of the UTF-8 form of a character. -/
def firstByte (c : Char) : UInt8 := (String.utf8EncodeChar c).headD 0

/-- The byte goes on a character that an earlier one began. -/
def isInnerByte (byte : UInt8) : Bool := 0x80 ≤ byte && byte < 0xC0

/-- How many bytes a UTF-8 sequence has that begins with `byte`. A byte that
begins no longer sequence counts as one. -/
def sequenceWidth (byte : UInt8) : Nat :=
  if 0xC0 ≤ byte && byte ≤ 0xDF then 2
  else if 0xE0 ≤ byte && byte ≤ 0xEF then 3
  else if 0xF0 ≤ byte && byte ≤ 0xF7 then 4
  else 1

/-- The UTF-8 form of a text. -/
def utf8Bytes (text : List Char) : List UInt8 := text.flatMap String.utf8EncodeChar

/-- The byte `k` places into a text, or zero past its end. Each character has
at least one byte, so the first `k + 1` characters decide. -/
def byteAt (k : Nat) (text : List Char) : UInt8 :=
  ((text.take (k + 1)).flatMap String.utf8EncodeChar)[k]?.getD 0

/-! ## Length -/

/-- The number of UTF-8 bytes of a text. -/
def byteLength (text : List Char) : Nat := text.foldl (fun n c => n + c.utf8Size) 0

theorem foldl_utf8Size (text : List Char) (n : Nat) :
    text.foldl (fun n c => n + c.utf8Size) n = n + byteLength text := by
  induction text generalizing n with
  | nil => rfl
  | cons c text ih =>
    simp only [byteLength, List.foldl_cons]
    rw [ih, ih (0 + c.utf8Size)]
    omega

@[simp] theorem byteLength_nil : byteLength [] = 0 := rfl

@[simp] theorem byteLength_cons (c : Char) (text : List Char) :
    byteLength (c :: text) = c.utf8Size + byteLength text := by
  rw [byteLength, List.foldl_cons, foldl_utf8Size]
  omega

@[simp] theorem byteLength_append (a b : List Char) :
    byteLength (a ++ b) = byteLength a + byteLength b := by
  rw [byteLength, List.foldl_append, foldl_utf8Size, foldl_utf8Size, Nat.zero_add]

/-! ## Cuts -/

/-- The longest beginning of a text that fits into `n` bytes, and the rest.
`taken` holds what was taken already, last character first. -/
def splitFrom : Nat → List Char → List Char → List Char × List Char
  | _, [], taken => (taken.reverse, [])
  | n, c :: text, taken =>
    if c.utf8Size ≤ n then splitFrom (n - c.utf8Size) text (c :: taken)
    else (taken.reverse, c :: text)

/-- The longest beginning of a text that fits into `n` bytes, and the rest. -/
def splitBytes (n : Nat) (text : List Char) : List Char × List Char := splitFrom n text []

/-- The longest beginning of a text that fits into `n` bytes. -/
def takeBytes (n : Nat) (text : List Char) : List Char := (splitBytes n text).1

/-- The longest ending of a text that fits into `n` bytes. -/
def lastBytes (n : Nat) (text : List Char) : List Char := (takeBytes n text.reverse).reverse

theorem splitFrom_append (n : Nat) (text taken : List Char) :
    (splitFrom n text taken).1 ++ (splitFrom n text taken).2 = taken.reverse ++ text := by
  induction text generalizing n taken with
  | nil => simp [splitFrom]
  | cons c text ih =>
    by_cases h : c.utf8Size ≤ n <;> simp [splitFrom, h, ih]

/-- A cut loses nothing. -/
theorem splitBytes_append (n : Nat) (text : List Char) :
    (splitBytes n text).1 ++ (splitBytes n text).2 = text := by
  simp [splitBytes, splitFrom_append]

theorem splitFrom_byteLength (w rest taken : List Char) :
    splitFrom (byteLength w) (w ++ rest) taken = (taken.reverse ++ w, rest) := by
  induction w generalizing taken with
  | nil =>
    cases rest with
    | nil => simp [splitFrom]
    | cons c rest =>
      have := c.utf8Size_pos
      rw [byteLength_nil, List.nil_append, splitFrom, if_neg (by omega), List.append_nil]
  | cons c w ih =>
    simp [splitFrom, ih]

/-- A cut at the length of a beginning is the cut after that beginning. -/
@[simp] theorem splitBytes_byteLength (w rest : List Char) :
    splitBytes (byteLength w) (w ++ rest) = (w, rest) := by
  simp [splitBytes, splitFrom_byteLength]

/-! ## Beginnings and endings that fit -/

theorem splitFrom_fst (n : Nat) (text taken : List Char) :
    (splitFrom n text taken).1 = taken.reverse ++ takeBytes n text := by
  induction text generalizing n taken with
  | nil => simp [splitFrom, takeBytes, splitBytes]
  | cons c text ih =>
    have hwhole : takeBytes n (c :: text) = (splitFrom n (c :: text) []).1 := rfl
    by_cases h : c.utf8Size ≤ n
    · have hstep : ∀ taken, splitFrom n (c :: text) taken =
          splitFrom (n - c.utf8Size) text (c :: taken) := fun taken => by rw [splitFrom, if_pos h]
      rw [hwhole, hstep, hstep, ih, ih _ [c]]
      simp
    · simp [hwhole, splitFrom, h]

theorem takeBytes_cons (n : Nat) (c : Char) (text : List Char) : takeBytes n (c :: text) =
    if c.utf8Size ≤ n then c :: takeBytes (n - c.utf8Size) text else [] := by
  by_cases h : c.utf8Size ≤ n
  · rw [if_pos h, takeBytes, splitBytes, splitFrom, if_pos h, splitFrom_fst]
    rfl
  · rw [if_neg h, takeBytes, splitBytes, splitFrom, if_neg h]
    rfl

/-- What fits into fewer bytes begins what fits into more. -/
theorem takeBytes_mono {m n : Nat} (h : m ≤ n) (text : List Char) :
    takeBytes m text <+: takeBytes n text := by
  induction text generalizing m n with
  | nil => exact List.prefix_rfl
  | cons c text ih =>
    rw [takeBytes_cons, takeBytes_cons]
    by_cases hm : c.utf8Size ≤ m
    · rw [if_pos hm, if_pos (Nat.le_trans hm h)]
      exact List.cons_prefix_cons.2 ⟨rfl, ih (Nat.sub_le_sub_right h _)⟩
    · rw [if_neg hm]
      exact List.nil_prefix

/-- A text that fits is taken as a whole. -/
theorem takeBytes_of_le {n : Nat} {text : List Char} (h : byteLength text ≤ n) :
    takeBytes n text = text := by
  induction text generalizing n with
  | nil => rfl
  | cons c text ih =>
    rw [byteLength_cons] at h
    rw [takeBytes_cons, if_pos (by omega), ih (by omega)]

theorem lastBytes_mono {m n : Nat} (h : m ≤ n) (text : List Char) :
    lastBytes m text <:+ lastBytes n text :=
  List.reverse_suffix.2 (takeBytes_mono h text.reverse)

theorem byteLength_reverse (text : List Char) : byteLength text.reverse = byteLength text := by
  induction text with
  | nil => rfl
  | cons c text ih =>
    rw [List.reverse_cons, byteLength_append, ih, byteLength_cons, byteLength_cons, byteLength_nil]
    omega

theorem lastBytes_of_le {n : Nat} {text : List Char} (h : byteLength text ≤ n) :
    lastBytes n text = text := by
  rw [lastBytes, takeBytes_of_le (by rwa [byteLength_reverse]), List.reverse_reverse]

end Polyglot
