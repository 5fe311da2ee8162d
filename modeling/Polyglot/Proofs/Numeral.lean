-- SUMMARY: The numbers of JSON and what they come to.
import Mathlib.Algebra.Order.Ring.Rat
import Mathlib.Data.List.TakeWhile
import Polyglot.Diagnostic.Json

/-!
# The numbers of JSON

`Json.number?` reads a whole text as a number of JSON and says what it comes to. A number
goes on as long as its characters do (`Json.number?_spec`), and the decimal digits of a
natural number are a number of JSON (`Json.number?_toDigits`).
-/

namespace Polyglot

namespace Json

/-! ## Reading -/

/-- The digits at the front of a text, of which there is at least one, and what is behind. -/
def digits? (t : List Char) : Option (List Char × List Char) :=
  if t.takeWhile Char.isDigit = [] then none
  else some (t.takeWhile Char.isDigit, t.dropWhile Char.isDigit)

/-- The whole part of a number. A zero at its front is all of it. -/
def whole? : List Char → Option (List Char × List Char)
  | '0' :: t => some (['0'], t)
  | t => digits? t

/-- The digits behind a decimal point, if there is one. -/
def fraction? : List Char → Option (List Char × List Char)
  | '.' :: t => digits? t
  | t => some ([], t)

/-- The sign of an exponent, which is minus or not. -/
def sign : List Char → Bool × List Char
  | '-' :: t => (true, t)
  | '+' :: t => (false, t)
  | t => (false, t)

/-- The power of ten that a number is multiplied by, if it has an exponent. -/
def exponent? : List Char → Option (Int × List Char)
  | [] => some (0, [])
  | e :: t =>
    if e = 'e' ∨ e = 'E' then
      (digits? (sign t).2).map fun (ds, t') =>
        (if (sign t).1 then -(Nat.ofDigitChars 10 ds 0 : Int) else Nat.ofDigitChars 10 ds 0, t')
    else some (0, e :: t)

/-- What a number without a minus in front comes to. -/
def magnitude? (t : List Char) : Option Rat := do
  let (whole, t) ← whole? t
  let (fraction, t) ← fraction? t
  let (exponent, t) ← exponent? t
  if t = [] then
    some (Nat.ofDigitChars 10 (whole ++ fraction) 0 * (10 : Rat) ^ (exponent - fraction.length))
  else none

/-- What a number comes to. -/
def number? : List Char → Option Rat
  | '-' :: t => (magnitude? t).map (-·)
  | t => magnitude? t

example : number? "-12.50e1".toList = some (-125) ∧ number? "012".toList = none := by
  decide +kernel

/-- A character that a number may have. -/
def isNumberPart (c : Char) : Bool := c.isDigit || ['-', '+', '.', 'e', 'E'].contains c

/-- From one text to the next there are only characters that a number may have. -/
def Numeric (t r : List Char) : Prop := ∃ u, t = u ++ r ∧ ∀ c ∈ u, isNumberPart c

variable {t r ds : List Char} {q : Rat}

theorem Numeric.refl (t : List Char) : Numeric t t := ⟨[], rfl, by simp⟩

theorem Numeric.cons {c : Char} (hc : isNumberPart c) (h : Numeric t r) : Numeric (c :: t) r := by
  obtain ⟨u, rfl, hu⟩ := h
  exact ⟨c :: u, rfl, List.forall_mem_cons.2 ⟨hc, hu⟩⟩

theorem Numeric.trans {t' : List Char} (h : Numeric t t') (k : Numeric t' r) : Numeric t r := by
  obtain ⟨u, rfl, hu⟩ := h
  obtain ⟨v, rfl, hv⟩ := k
  exact ⟨u ++ v, by simp, List.forall_mem_append.2 ⟨hu, hv⟩⟩

theorem digits?_spec (h : digits? t = some (ds, r)) :
    t = ds ++ r ∧ ds ≠ [] ∧ ∀ c ∈ ds, c.isDigit := by
  unfold digits? at h
  split at h
  · cases h
  · next hne =>
    cases h
    exact ⟨List.takeWhile_append_dropWhile.symm, hne,
      fun c hc => List.all_eq_true.1 List.all_takeWhile c hc⟩

theorem numeric_digits (h : digits? t = some (ds, r)) : Numeric t r := by
  obtain ⟨ht, -, hds⟩ := digits?_spec h
  exact ⟨ds, ht, fun c hc => by simp [isNumberPart, hds c hc]⟩

/-- A number begins with a digit, if not with a minus. -/
theorem whole?_spec (h : whole? t = some (ds, r)) :
    Numeric t r ∧ ∃ c u, t = c :: u ∧ c.isDigit := by
  unfold whole? at h
  split at h
  · next t =>
    cases h
    exact ⟨.cons (by decide) (.refl _), '0', _, rfl, by decide⟩
  · obtain ⟨rfl, hne, hds⟩ := digits?_spec h
    obtain ⟨c, u, rfl⟩ := List.exists_cons_of_ne_nil hne
    exact ⟨numeric_digits h, c, u ++ r, rfl, hds c (by simp)⟩

theorem numeric_fraction (h : fraction? t = some (ds, r)) : Numeric t r := by
  unfold fraction? at h
  split at h
  · exact .cons (by decide) (numeric_digits h)
  · cases h
    exact .refl t

theorem numeric_sign (t : List Char) : Numeric t (sign t).2 := by
  unfold sign
  split
  · exact .cons (by decide) (.refl _)
  · exact .cons (by decide) (.refl _)
  · exact .refl t

theorem numeric_exponent {k : Int} (h : exponent? t = some (k, r)) : Numeric t r := by
  unfold exponent? at h
  split at h
  · cases h
    exact .refl _
  · next e t =>
    split at h
    · next he =>
      obtain ⟨⟨ds, t'⟩, hds, heq⟩ := Option.map_eq_some_iff.1 h
      cases heq
      have hpart : isNumberPart e := by
        rcases he with rfl | rfl <;> decide
      exact .cons hpart ((numeric_sign t).trans (numeric_digits hds))
    · cases h
      exact .refl _

theorem magnitude?_spec (h : magnitude? t = some q) :
    Numeric t [] ∧ ∃ c u, t = c :: u ∧ c.isDigit := by
  simp only [magnitude?, Option.bind_eq_bind, Option.bind_eq_some_iff, Prod.exists,
    Option.ite_none_right_eq_some] at h
  obtain ⟨whole, t₁, hwhole, fraction, t₂, hfraction, k, t₃, hk, rfl, -⟩ := h
  obtain ⟨hnumeric, hlead⟩ := whole?_spec hwhole
  exact ⟨(hnumeric.trans (numeric_fraction hfraction)).trans (numeric_exponent hk), hlead⟩

theorem number?_spec (h : number? t = some q) :
    (∀ c ∈ t, isNumberPart c) ∧ ∃ c u, t = c :: u ∧ (c = '-' ∨ c.isDigit) := by
  have hparts : ∀ {t : List Char}, Numeric t [] → ∀ c ∈ t, isNumberPart c := by
    rintro t ⟨u, rfl, hu⟩ c hc
    exact hu c (by simpa using hc)
  unfold number? at h
  split at h
  · next t =>
    obtain ⟨q', hq, -⟩ := Option.map_eq_some_iff.1 h
    exact ⟨hparts (.cons (by decide) (magnitude?_spec hq).1), '-', t, rfl, .inl rfl⟩
  · obtain ⟨hnumeric, c, u, ht, hc⟩ := magnitude?_spec h
    exact ⟨hparts hnumeric, c, u, ht, .inr hc⟩

/-! ## Natural numbers -/

theorem digits?_of_isDigit (hds : ∀ c ∈ ds, c.isDigit) (hne : ds ≠ []) :
    digits? ds = some (ds, []) := by
  rw [digits?, List.takeWhile_eq_self_iff.2 hds, List.dropWhile_eq_nil_iff.2 hds, if_neg hne]

/-- Only the digits of zero begin with a zero. -/
theorem eq_nil_of_toDigits (n : Nat) (h : Nat.toDigits 10 n = '0' :: t) : t = [] := by
  induction n using Nat.strongRecOn generalizing t with
  | ind n ih =>
    by_cases hsmall : n < 10
    · rw [Nat.toDigits_of_lt_base hsmall] at h
      exact (List.cons.inj h).2.symm
    · -- the front digits begin with the zero, so they are a zero and come to nothing
      rw [Nat.toDigits_of_base_le (by decide) (by omega)] at h
      obtain ⟨c, u, hfront⟩ : ∃ c u, Nat.toDigits 10 (n / 10) = c :: u :=
        List.exists_cons_of_ne_nil Nat.toDigits_ne_nil
      rw [hfront, List.cons_append] at h
      obtain ⟨rfl, -⟩ := List.cons.inj h
      obtain rfl := ih (n / 10) (by omega) hfront
      have hzero : 0 = n / 10 := calc
        0 = Nat.ofDigitChars 10 ['0'] 0 := rfl
        _ = n / 10 := by rw [← hfront, Nat.ofDigitChars_ten_toDigits]
      omega

theorem isDigit_of_mem_toDigits {n : Nat} : ∀ c ∈ Nat.toDigits 10 n, c.isDigit := fun _ hc =>
  Nat.isDigit_of_mem_toDigits (by decide) (by decide) hc

theorem whole?_toDigits (n : Nat) : whole? (Nat.toDigits 10 n) = some (Nat.toDigits 10 n, []) := by
  unfold whole?
  split
  · next t ht =>
    obtain rfl := eq_nil_of_toDigits n ht
    rw [ht]
  · exact digits?_of_isDigit isDigit_of_mem_toDigits Nat.toDigits_ne_nil

/-- The decimal digits of a natural number come to it. -/
theorem number?_toDigits (n : Nat) : number? (Nat.toDigits 10 n) = some n := by
  have hmagnitude : magnitude? (Nat.toDigits 10 n) = some n := by
    simp [magnitude?, whole?_toDigits, fraction?, exponent?, Nat.ofDigitChars_ten_toDigits]
  unfold number?
  split
  · next t ht =>
    have hminus := isDigit_of_mem_toDigits '-' (ht ▸ List.mem_cons_self)
    cases hminus
  · exact hmagnitude

end Json

end Polyglot
