-- SUMMARY: Removing white space from the ends of a text.
import Polyglot.Text.Class

/-!
# Trimming

White space at an end of a text is every character with the Unicode property
`White_Space`, so a no-break space is trimmed and a zero-width space is not.
-/

namespace Polyglot

/-- The text without the white space it begins with. -/
def trimStart (text : List Char) : List Char := text.dropWhile isUnicodeSpace

/-- The text without the white space it ends with. -/
def trimEnd (text : List Char) : List Char := (trimStart text.reverse).reverse

/-- The text without the white space at both ends. -/
def trim (text : List Char) : List Char := trimEnd (trimStart text)

/-- Trimming the end cuts off white space and nothing else. -/
theorem exists_append_trimEnd (text : List Char) :
    ∃ space, text = trimEnd text ++ space ∧ ∀ c ∈ space, isUnicodeSpace c := by
  refine ⟨(text.reverse.takeWhile isUnicodeSpace).reverse, ?_, ?_⟩
  · rw [trimEnd, trimStart, ← List.reverse_append, List.takeWhile_append_dropWhile,
      List.reverse_reverse]
  · intro c hc
    exact List.all_eq_true.1 List.all_takeWhile c (List.mem_reverse.1 hc)

/-- Trimming the start cuts off white space and nothing else. -/
theorem exists_append_trimStart (text : List Char) :
    ∃ space, text = space ++ trimStart text ∧ ∀ c ∈ space, isUnicodeSpace c :=
  ⟨text.takeWhile isUnicodeSpace, List.takeWhile_append_dropWhile.symm,
    fun c hc => List.all_eq_true.1 List.all_takeWhile c hc⟩

theorem length_trimEnd_le (text : List Char) : (trimEnd text).length ≤ text.length := by
  obtain ⟨space, hspace, -⟩ := exists_append_trimEnd text
  have hlength := congrArg List.length hspace
  rw [List.length_append] at hlength
  omega

/-- Behind a character that is no white space everything may be trimmed, but not the
character. -/
theorem length_lt_trimEnd (text : List Char) {ch : Char} (hch : isUnicodeSpace ch = false)
    (rest : List Char) : text.length < (trimEnd (text ++ ch :: rest)).length := by
  obtain ⟨space, hspace, hwhite⟩ := exists_append_trimEnd (text ++ ch :: rest)
  have hsolid : ch ∉ space := fun hmem => by
    rw [hwhite ch hmem] at hch
    cases hch
  obtain ⟨more, htrim, hmore⟩ | ⟨more, -, hmore⟩ := List.append_eq_append_iff.1 hspace
  · cases more with
    | nil => exact absurd (by rw [← List.nil_append space, ← hmore]; simp) hsolid
    | cons x more => simp [htrim]
  · exact absurd (by rw [hmore]; simp) hsolid

theorem trimEnd_append (before : List Char) {text : List Char} (h : trimEnd text ≠ []) :
    trimEnd (before ++ text) = before ++ trimEnd text := by
  have hsolid : (text.reverse.dropWhile isUnicodeSpace).isEmpty = false := by
    simpa [trimEnd, trimStart] using h
  rw [trimEnd, trimStart, List.reverse_append, List.dropWhile_append, hsolid]
  simp [trimEnd, trimStart]

end Polyglot
