-- SUMMARY: Packed positions: offset, line and column as they are stored, in 32 bits each.
import Polyglot.Text.Position

/-!
# Packed positions

A position is stored in three numbers of 32 bits. They are counted up byte by byte, and to
count beyond the largest one is an error, so a packed position may have no successor. As long
as all three numbers fit, it moves as the position does that it stores
(`PackedPosition.bump?_eq_some_iff`). A walk over some bytes comes to an end exactly if the
numbers fit behind each of them (`PackedPosition.foldlM_bump?_eq_some_iff`).
-/

namespace Polyglot

/-- Each number of a position fits into 32 bits. -/
def Position.Fits (p : Position) : Prop :=
  p.offset < UInt32.size ∧ p.line < UInt32.size ∧ p.column < UInt32.size

instance (p : Position) : Decidable p.Fits := inferInstanceAs (Decidable (_ ∧ _ ∧ _))

/-- A position as it is stored. -/
structure PackedPosition where
  offset : UInt32
  line : UInt32
  column : UInt32
  deriving DecidableEq

/-- Store a position, if its numbers fit. -/
def Position.pack? (p : Position) : Option PackedPosition :=
  if p.Fits then some ⟨.ofNat p.offset, .ofNat p.line, .ofNat p.column⟩ else none

namespace PackedPosition

/-- The first byte of a document. -/
def start : PackedPosition := ⟨0, 1, 1⟩

/-- Read a position that was stored. -/
def unpack (p : PackedPosition) : Position := ⟨p.offset.toNat, p.line.toNat, p.column.toNat⟩

/-- One more, if there is room for it. -/
def count? (n : UInt32) : Option UInt32 := if n = 0xFFFFFFFF then none else some (n + 1)

/-- The position after one byte. -/
def bump? (p : PackedPosition) (byte : UInt8) : Option PackedPosition := do
  let offset ← count? p.offset
  if byte = 0x0A then return ⟨offset, ← count? p.line, 1⟩
  else if isInnerByte byte then return ⟨offset, p.line, p.column⟩
  else return ⟨offset, p.line, ← count? p.column⟩

/-- The position after a text. -/
def advanceOver? (p : PackedPosition) (text : List Char) : Option PackedPosition :=
  (utf8Bytes text).foldlM bump? p

variable {p q : PackedPosition}

@[simp] theorem unpack_start : start.unpack = .start := rfl

theorem fits_unpack (p : PackedPosition) : p.unpack.Fits :=
  ⟨p.offset.toNat_lt_size, p.line.toNat_lt_size, p.column.toNat_lt_size⟩

theorem unpack_inj : p.unpack = q.unpack ↔ p = q := by
  obtain ⟨offset, line, column⟩ := p
  obtain ⟨offset', line', column'⟩ := q
  simp [unpack, UInt32.toNat_inj]

/-- What is stored can be read again, and nothing else is stored. -/
theorem pack?_eq_some_iff {p : Position} : p.pack? = some q ↔ q.unpack = p := by
  unfold Position.pack?
  constructor
  · intro h
    split at h
    · next hfits =>
      obtain ⟨offset, line, column⟩ := p
      obtain ⟨hoffset, hline, hcolumn⟩ := hfits
      obtain rfl := Option.some.inj h
      rw [unpack, UInt32.toNat_ofNat_of_lt' hoffset, UInt32.toNat_ofNat_of_lt' hline,
        UInt32.toNat_ofNat_of_lt' hcolumn]
    · cases h
  · rintro rfl
    rw [if_pos q.fits_unpack, unpack, UInt32.ofNat_toNat, UInt32.ofNat_toNat, UInt32.ofNat_toNat]

theorem count?_eq_some_iff {n m : UInt32} : count? n = some m ↔ m.toNat = n.toNat + 1 := by
  have hlast : n = 0xFFFFFFFF ↔ n.toNat + 1 = UInt32.size := by
    rw [← UInt32.toNat_inj]
    exact (Nat.add_right_cancel_iff (n := 1)).symm
  unfold count?
  split
  · next hfull =>
    simp only [reduceCtorEq, false_iff, hlast.1 hfull]
    exact Nat.ne_of_lt m.toNat_lt_size
  · next hroom =>
    have hnext : (n + 1).toNat = n.toNat + 1 := by
      rw [UInt32.toNat_add]
      exact Nat.mod_eq_of_lt (Nat.lt_of_le_of_ne n.toNat_lt_size fun heq => hroom (hlast.2 heq))
    rw [Option.some.injEq, ← UInt32.toNat_inj, hnext, eq_comm]

theorem bind_count?_eq_some_iff {α : Type} {n : UInt32} {f : UInt32 → Option α} {a : α} :
    (count? n >>= f) = some a ↔ ∃ m : UInt32, m.toNat = n.toNat + 1 ∧ f m = some a := by
  rw [Option.bind_eq_bind, Option.bind_eq_some_iff]
  simp only [count?_eq_some_iff]

/-- A packed position moves over a byte as the position does that it stores, if there is room
for where this one gets to. -/
theorem bump?_eq_some_iff {byte : UInt8} :
    p.bump? byte = some q ↔ q.unpack = p.unpack.bump byte := by
  obtain ⟨offset, line, column⟩ := p
  obtain ⟨offset', line', column'⟩ := q
  simp only [bump?, Position.bump, unpack, Position.forward]
  split
  case isTrue =>
    simp only [bind_count?_eq_some_iff, pure, Option.some.injEq, mk.injEq, Position.mk.injEq]
    constructor
    · rintro ⟨_, hoffset, _, hline, rfl, rfl, rfl⟩
      exact ⟨hoffset, hline, rfl⟩
    · rintro ⟨hoffset, hline, hcolumn⟩
      exact ⟨_, hoffset, _, hline, rfl, rfl, UInt32.toNat_inj.1 hcolumn.symm⟩
  case isFalse =>
    split
    all_goals simp only [bind_count?_eq_some_iff, pure, Option.some.injEq, mk.injEq,
      Position.mk.injEq, UInt32.toNat_inj]
    case isTrue =>
      constructor
      · rintro ⟨_, hoffset, rfl, rfl, rfl⟩
        exact ⟨hoffset, rfl, rfl⟩
      · rintro ⟨hoffset, hline, hcolumn⟩
        exact ⟨_, hoffset, rfl, hline.symm, hcolumn.symm⟩
    case isFalse =>
      constructor
      · rintro ⟨_, hoffset, _, hcolumn, rfl, rfl, rfl⟩
        exact ⟨hoffset, rfl, hcolumn⟩
      · rintro ⟨hoffset, hline, hcolumn⟩
        exact ⟨_, hoffset, _, hcolumn, rfl, hline.symm, rfl⟩

/-- A walk gets to its end exactly if the numbers fit all along. -/
theorem foldlM_bump?_eq_some_iff {bytes : List UInt8} : bytes.foldlM bump? p = some q ↔
    q.unpack = bytes.foldl Position.bump p.unpack ∧
      ∀ read, read <+: bytes → (read.foldl Position.bump p.unpack).Fits := by
  induction bytes generalizing p with
  | nil =>
    simp only [List.foldlM_nil, pure, Option.some.injEq, List.foldl_nil, List.prefix_nil,
      forall_eq, p.fits_unpack, and_true, unpack_inj, eq_comm]
  | cons byte bytes ih =>
    rw [List.foldlM_cons, List.foldl_cons, Option.bind_eq_bind, Option.bind_eq_some_iff]
    constructor
    · rintro ⟨next, hnext, hmore⟩
      rw [bump?_eq_some_iff] at hnext
      obtain ⟨hq, hfits⟩ := ih.1 hmore
      rw [hnext] at hq hfits
      refine ⟨hq, fun read hread => ?_⟩
      rcases List.prefix_cons_iff.1 hread with rfl | ⟨read, rfl, hread⟩
      · exact p.fits_unpack
      · exact hfits read (List.cons_prefix_cons.1 hread).2
    · rintro ⟨hq, hfits⟩
      -- the numbers fit behind the first byte, so there is a packed position to go on from
      have hfirst : (p.unpack.bump byte).Fits :=
        hfits [byte] (List.cons_prefix_cons.2 ⟨rfl, List.nil_prefix⟩)
      obtain ⟨next, hnext⟩ : ∃ next, (p.unpack.bump byte).pack? = some next :=
        ⟨_, if_pos hfirst⟩
      rw [pack?_eq_some_iff] at hnext
      refine ⟨next, bump?_eq_some_iff.2 hnext, ih.2 ⟨hnext ▸ hq, fun read hread => ?_⟩⟩
      rw [hnext]
      exact hfits (byte :: read) (List.cons_prefix_cons.2 ⟨rfl, hread⟩)

/-- There is no line behind the last one that can be stored. -/
example : (⟨0xFFFFFFFE, 0xFFFFFFFF, 1⟩ : PackedPosition).advanceOver? ['\n'] = none := by decide

end PackedPosition

end Polyglot
