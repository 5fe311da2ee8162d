-- SUMMARY: A quoted text is on one line and is read back as the text that was quoted.
import Polyglot.Proofs.Json
import Polyglot.Text.Quoted

/-!
# Quoted text read back

`Quoted.unquote?` reads a text between quotes by the rules of escapes: a backslash and
a letter, or the number of a character in braces. It undoes `Quoted.quote`, whatever
follows the closing quote (`Quoted.unquote?_quote`). So a preview tells just the
characters that it shows and whether there are more of them, and no character of the
text, once escaped, ends a line or controls the place where it is printed
(`Quoted.preview_reads`).
-/

namespace Polyglot

/-! ## Lines -/

/-- The characters that end a line, for a reader of one kind or another. -/
def lineBreaks : List Char := ['\n', '\x0B', '\x0C', '\r', '\u0085', '\u2028', '\u2029']

/-- The character ends a line. -/
def isLineBreak (c : Char) : Bool := lineBreaks.contains c

/-- The text is on one line, and controls nothing. -/
def OneLine (text : List Char) : Prop :=
  ∀ c ∈ text, isControl c = false ∧ isLineBreak c = false

instance (text : List Char) : Decidable (OneLine text) :=
  decidable_of_iff (text.all fun c => !isControl c && !isLineBreak c) (by simp [OneLine])

variable {s t : List Char} {c : Char}

theorem OneLine.append (hs : OneLine s) (ht : OneLine t) : OneLine (s ++ t) :=
  List.forall_mem_append.2 ⟨hs, ht⟩

/-- The digits of a number are on one line. -/
theorem oneLine_toDigits {base : Nat} (hbase : 1 < base) (hmax : base ≤ 16) (n : Nat) :
    OneLine (Nat.toDigits base n) := by
  have hdigit : ∀ d < 16, OneLine [d.digitChar] := by decide
  induction n using Nat.strong_induction_on with
  | _ n ih =>
    rw [Nat.toDigits_eq_if hbase]
    split
    · next hsmall => exact hdigit n (Nat.lt_of_lt_of_le hsmall hmax)
    · next hlarge =>
      have hless : n / base < n := Nat.div_lt_self (by omega) hbase
      have hlast : n % base < 16 := Nat.lt_of_lt_of_le (Nat.mod_lt n (by omega)) hmax
      exact (ih _ hless).append (hdigit _ hlast)

namespace Quoted

/-! ## Reading -/

/-- What comes next in a quoted text. -/
inductive Reading where
  /-- A character, or the quote at the end. -/
  | character
  /-- The letter of an escape. -/
  | escape
  /-- The brace in front of a number. -/
  | brace
  /-- A digit of a number, or the brace behind it. -/
  | digit (n : Nat)

/-- The character that a backslash and a letter stand for. -/
def shortEscape? : Char → Option Char
  | '"' => some '"'
  | '\'' => some '\''
  | '\\' => some '\\'
  | 'n' => some '\n'
  | 'r' => some '\r'
  | 't' => some '\t'
  | '0' => some '\x00'
  | _ => none

/-- A character in front of what was read. -/
def put (c : Char) (read : Option (List Char × List Char)) : Option (List Char × List Char) :=
  read.map fun (text, rest) => (c :: text, rest)

/-- Read up to the closing quote. The second result is what is behind it. -/
def unquoteFrom : Reading → List Char → Option (List Char × List Char)
  | _, [] => none
  | .character, c :: rest =>
    if c = '"' then some ([], rest)
    else if c = '\\' then unquoteFrom .escape rest
    else put c (unquoteFrom .character rest)
  | .escape, c :: rest =>
    if c = 'u' then unquoteFrom .brace rest
    else (shortEscape? c).bind fun c => put c (unquoteFrom .character rest)
  | .brace, c :: rest => if c = '{' then unquoteFrom (.digit 0) rest else none
  | .digit n, c :: rest =>
    if c = '}' then
      if n.isValidChar then put (Char.ofNat n) (unquoteFrom .character rest) else none
    else (Json.hexDigit? c).bind fun d => unquoteFrom (.digit (16 * n + d)) rest

/-- The text between the quotes at the front, and what is behind them. -/
def unquote? : List Char → Option (List Char × List Char)
  | '"' :: rest => unquoteFrom .character rest
  | _ => none

/-! ## Numbers -/

/-- The digits of a number are read back as the number. -/
theorem hex?_hexDigits (n : Nat) : Json.hex? (hexDigits n) = some n := by
  have hdigit : ∀ d < 16, Json.hexDigit? d.digitChar = some d := by decide
  induction n using Nat.strong_induction_on with
  | _ n ih =>
    rw [hexDigits, Nat.toDigits_eq_if (by decide)]
    split
    · next hsmall => simp [Json.hex?, hdigit n hsmall]
    · have hrest : Json.hex? (Nat.toDigits 16 (n / 16)) = some (n / 16) := ih _ (by omega)
      rw [Json.hex?] at hrest ⊢
      rw [List.foldlM_append, hrest]
      simp [hdigit (n % 16) (Nat.mod_lt n (by decide)), Nat.div_add_mod]

theorem unquoteFrom_digits {digits : List Char} {n m : Nat}
    (h : digits.foldlM (fun n c => (Json.hexDigit? c).map (16 * n + ·)) n = some m)
    (rest : List Char) :
    unquoteFrom (.digit n) (digits ++ rest) = unquoteFrom (.digit m) rest := by
  induction digits generalizing n with
  | nil =>
    obtain rfl : n = m := by simpa using h
    rfl
  | cons c digits ih =>
    rw [List.foldlM_cons] at h
    cases hc : Json.hexDigit? c with
    | none => simp [hc] at h
    | some d =>
      have hbrace : c ≠ '}' := by
        rintro rfl
        cases hc
      simp only [hc, Option.map_some, Option.bind_eq_bind, Option.bind_some] at h
      rw [List.cons_append, unquoteFrom, if_neg hbrace, hc]
      exact ih h

/-! ## Escapes -/

/-- A character is read back from its form between quotes. -/
theorem unquoteFrom_escape (c : Char) (rest : List Char) :
    unquoteFrom .character (escape c ++ rest) = put c (unquoteFrom .character rest) := by
  unfold escape
  split
  · rfl
  · rfl
  · rfl
  · rfl
  · rfl
  · rfl
  · next hquote hbackslash _ _ _ _ =>
    split
    · rw [List.singleton_append, unquoteFrom, if_neg hquote, if_neg hbackslash]
    · have hvalid : c.toNat.isValidChar := c.valid
      simp only [List.cons_append, List.nil_append, List.append_assoc]
      rw [unquoteFrom, if_neg (by decide), if_pos rfl, unquoteFrom, if_pos rfl, unquoteFrom,
        if_pos rfl, unquoteFrom_digits (hex?_hexDigits c.toNat), unquoteFrom, if_pos rfl,
        if_pos hvalid, Char.ofNat_toNat]

/-- A quoted text is read back, whatever is behind it. -/
theorem unquote?_quote (text rest : List Char) :
    unquote? (quote text ++ rest) = some (text, rest) := by
  have hread : unquoteFrom .character (text.flatMap escape ++ '"' :: rest) = some (text, rest) := by
    induction text with
    | nil => rfl
    | cons c text ih => rw [List.flatMap_cons, List.append_assoc, unquoteFrom_escape, ih]; rfl
  simpa [quote, unquote?] using hread

/-- What has a glyph is no control and ends no line. -/
theorem oneLine_of_isPlain (h : isPlain c) : OneLine [c] := by
  have hbreaks : lineBreaks.all (fun x => !isPlain x) := by decide +kernel
  intro x hx
  obtain rfl := List.mem_singleton.1 hx
  refine ⟨?_, ?_⟩
  · simp only [isPlain, Bool.not_eq_true', Bool.or_eq_false_iff] at h
    exact h.1.1
  · rw [isLineBreak, List.contains_eq_mem, decide_eq_false_iff_not]
    intro hmem
    have hnot := List.all_eq_true.1 hbreaks x hmem
    simp [h] at hnot

theorem oneLine_escape (c : Char) : OneLine (escape c) := by
  have hopen : OneLine ['\\', 'u', '{'] := by decide
  have hclose : OneLine ['}'] := by decide
  unfold escape
  split
  · decide
  · decide
  · decide
  · decide
  · decide
  · decide
  · split
    · next hplain => exact oneLine_of_isPlain hplain
    · exact (hopen.append (oneLine_toDigits (by decide) (by decide) c.toNat)).append hclose

theorem oneLine_quote (text : List Char) : OneLine (quote text) := by
  have hquote : OneLine ['"'] := by decide
  have hletters : OneLine (text.flatMap escape) := by
    intro x hx
    obtain ⟨c, -, hc⟩ := List.mem_flatMap.1 hx
    exact oneLine_escape c x hc
  exact (hquote.append hletters).append hquote

/-! ## Previews -/

/-- What can be read from a preview of a content. -/
structure Reads (limit : Nat) (content : List Char) (preview : String) : Prop where
  oneLine : OneLine preview.toList
  /-- Between the quotes stands the beginning of the content, and behind them stand three dots
  exactly if there is more of it. -/
  unquoted : unquote? preview.toList = some (content.take limit,
    if limit < content.length then ['.', '.', '.'] else [])

theorem preview_reads (limit : Nat) (content : List Char) :
    Reads limit content (preview limit content) := by
  have hdots : (if (content.drop limit).isEmpty then [] else ['.', '.', '.']) =
      if limit < content.length then ['.', '.', '.'] else [] := by
    by_cases hmore : limit < content.length
    · have hne : content.drop limit ≠ [] := by simpa using hmore
      simp [hmore, hne]
    · have hnil : content.drop limit = [] := by simpa using hmore
      simp [hmore, hnil]
  refine ⟨?_, ?_⟩
  · rw [preview, String.toList_ofList]
    refine (oneLine_quote _).append ?_
    split <;> decide
  · rw [preview, String.toList_ofList, unquote?_quote, hdots]

/-- A quote in the content does not end the preview, and a line feed does not end its line. -/
example : preview 3 "\"\n\u0301b".toList = "\"\\\"\\n\\u\x7b301\x7d\"..." := by decide +kernel

end Quoted

end Polyglot
