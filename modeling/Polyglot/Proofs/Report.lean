-- SUMMARY: The report on diagnostics is one JSON array, from which the diagnostics are read back.
import Polyglot.Proofs.Json

/-!
# Reports read back

The writer puts JSON together from texts that are taken to be JSON. Each of its functions
keeps to that: what it makes is a text of the value meant if its parts are
(`Json.object_mem_bare`, `Json.array_mem_bare`). So the report on diagnostics is a text of
one array, with an object for each diagnostic in order. It has no other value, and another
list of diagnostics has another report (`Json.mem_texts_flush`).
-/

namespace Polyglot

namespace Json

/-! ## What is meant -/

/-- The object for a label. -/
def labelValue (l : Label) : Value :=
  .object
    [("offset", .number l.position.offset), ("line", .number l.position.line),
      ("column", .number l.position.column), ("message", .string l.message),
      ("primary", .bool l.isPrimary)]

/-- The object for a diagnostic. -/
def diagnosticValue (d : Diagnostic) : Value :=
  .object
    [("code", .string d.code.name), ("severity", .string d.severity.name),
      ("message", .string d.message), ("file", d.file.elim .null .string),
      ("labels", .array (d.labels.map labelValue)), ("notes", .array (d.notes.map .string)),
      ("help", .array (d.help.map .string))]

/-! ## Strings -/

/-- The number of a control has four digits, from which it is read back. -/
theorem hex?_of_isControl {c : Char} (h : isControl c) :
    let digits := List.replicate (4 - (hexDigits c.toNat).length) '0' ++ hexDigits c.toNat
    digits.length = 4 ∧ hex? digits = some c.toNat := by
  have hall : ∀ n < 160,
      let digits := List.replicate (4 - (hexDigits n).length) '0' ++ hexDigits n
      digits.length = 4 ∧ hex? digits = some n := by decide +kernel
  refine hall c.toNat ?_
  simp only [isControl, Bool.or_eq_true, Bool.and_eq_true, decide_eq_true_eq] at h
  omega

theorem visible_of_not_isControl {c : Char} (h : ¬ isControl c) : 0x20 ≤ c.toNat := by
  simp only [isControl, Bool.or_eq_true, decide_eq_true_eq, not_or, Nat.not_lt] at h
  exact h.1

theorem escape_mem_letter (c : Char) : escape c ∈ letter c := by
  unfold escape
  split
  · exact .escaped (.short rfl)
  · exact .escaped (.short rfl)
  · exact .escaped (.short rfl)
  · exact .escaped (.short rfl)
  · exact .escaped (.short rfl)
  · next hquote hbackslash _ _ _ =>
    by_cases hcontrol : isControl c
    · obtain ⟨hlength, hvalue⟩ := hex?_of_isControl hcontrol
      rw [if_pos hcontrol, List.append_assoc]
      match hdigits : List.replicate (4 - (hexDigits c.toNat).length) '0' ++ hexDigits c.toNat with
      | [x₁, x₂, x₃, x₄] => exact .escaped (.unit (hdigits ▸ hvalue))
      | [] | [_] | [_, _] | [_, _, _] | _ :: _ :: _ :: _ :: _ :: _ => simp [hdigits] at hlength
    · rw [if_neg hcontrol]
      exact .plain (visible_of_not_isControl hcontrol) hquote hbackslash

theorem string_mem_quoted (s : String) : (string s).toList ∈ quoted s := by
  have hletters : ∀ s : List Char, s.flatMap escape ∈ (s.map letter).prod := by
    intro s
    induction s with
    | nil => exact Language.nil_mem_one
    | cons c s ih => exact Language.append_mem_mul (escape_mem_letter c) ih
  rw [quoted, mem_between]
  exact ⟨_, hletters s.toList, by simp [string]⟩

/-! ## Sequences -/

variable {α : Type} {s first last : List Char}

theorem intercalate_cons (s u : List Char) (us : List (List Char)) :
    List.intercalate s (u :: us) = u ++ us.flatMap (s ++ ·) := by
  induction us generalizing u with
  | nil => simp
  | cons v us ih =>
    rw [List.intercalate_cons_cons, ih, List.flatMap_cons, List.append_assoc, List.append_assoc]

/-- Texts of the languages, with commas and white space put between them, are separated. -/
theorem intercalate_mem_separated {us : List (List Char)} {ls : List (Language Char)}
    (h : List.Forall₂ (· ∈ ·) us ls) (hne : ls ≠ []) (hs : s ∈ space) (hfirst : first ∈ space)
    (hlast : last ∈ space) :
    first ++ List.intercalate (',' :: s) us ++ last ∈ separated ls := by
  induction h generalizing first with
  | nil => exact absurd rfl hne
  | @cons u l us ls hu hus ih =>
    cases hus with
    | nil =>
      rw [List.intercalate_singleton]
      exact Language.append_mem_mul (Language.append_mem_mul hfirst hu) hlast
    | cons hv hvs =>
      have hcomma : [','] ∈ ({[',']} : Language Char) := rfl
      have htext := Language.append_mem_mul (Language.append_mem_mul (Language.append_mem_mul
        (Language.append_mem_mul hfirst hu) nil_mem_space) hcomma) (ih (by simp) hs)
      simpa [List.intercalate_cons_cons, separated] using htext

/-- What is put together with commas alone, or of nothing, is separated. -/
theorem commas_mem_separated {us : List (List Char)} {ls : List (Language Char)}
    (h : List.Forall₂ (· ∈ ·) us ls) : List.intercalate [','] us ∈ separated ls := by
  cases h with
  | nil => exact nil_mem_space
  | cons hu hus =>
    simpa using intercalate_mem_separated (.cons hu hus) (by simp) nil_mem_space nil_mem_space
      nil_mem_space

/-! ## Values -/

theorem array_mem_bare {items : List α} {write : α → String} {meant : α → Value}
    (h : ∀ a ∈ items, (write a).toList ∈ (meant a).bare) :
    (array (items.map write)).toList ∈ (Value.array (items.map meant)).bare := by
  rw [Value.bare, mem_between]
  refine ⟨List.intercalate [','] ((items.map write).map String.toList), ?_, ?_⟩
  · refine commas_mem_separated ?_
    simpa [List.forall₂_map_left_iff, List.forall₂_map_right_iff, List.forall₂_same] using h
  · simp [array, String.toList_intercalate]

/-! ## Objects -/

/-- The text of a member, without the comma in front of it. -/
def memberText (field : String × String) : List Char :=
  (string field.1).toList ++ ':' :: field.2.toList

theorem member_size {written : String} (h : 0 < written.utf8ByteSize) (field : String × String) :
    1 < (member written field).utf8ByteSize := by
  have hcolon : (":" : String).utf8ByteSize = 1 := rfl
  unfold member
  split
  · simp only [String.utf8ByteSize_append, hcolon]
    omega
  · simp only [String.utf8ByteSize_append, hcolon]
    omega

/-- Behind some member each further one has a comma in front. -/
theorem foldl_member {written : String} (h : 1 < written.utf8ByteSize)
    (fields : List (String × String)) : (fields.foldl member written).toList =
      written.toList ++ (fields.map memberText).flatMap ([','] ++ ·) := by
  induction fields generalizing written with
  | nil => simp
  | cons field fields ih =>
    rw [List.foldl_cons, ih (member_size (Nat.lt_of_succ_lt h) field), member, if_pos h]
    simp [memberText]

/-- The members of an object have a comma between each two. -/
theorem toList_object (fields : List (String × String)) : (object fields).toList =
    '\x7b' :: (List.intercalate [','] (fields.map memberText) ++ ['\x7d']) := by
  cases fields with
  | nil => rfl
  | cons field fields =>
    have hopen : ("\x7b" : String).utf8ByteSize = 1 := rfl
    have hfirst : (member "\x7b" field).toList = '\x7b' :: memberText field := by
      rw [member, if_neg (by omega)]
      simp [memberText]
    rw [object, String.toList_append, List.foldl_cons,
      foldl_member (member_size (by omega) field), hfirst, List.map_cons, intercalate_cons]
    simp

theorem object_mem_bare {fields : List (String × String)} {members : List (String × Value)}
    (h : List.Forall₂ (fun f m => f.1 = m.1 ∧ f.2.toList ∈ m.2.bare) fields members) :
    (object fields).toList ∈ (Value.object members).bare := by
  rw [Value.bare, mem_between]
  refine ⟨List.intercalate [','] (fields.map memberText), commas_mem_separated ?_,
    toList_object fields⟩
  rw [List.forall₂_map_left_iff, List.forall₂_map_right_iff]
  refine h.imp ?_
  rintro ⟨key, text⟩ ⟨_, v⟩ ⟨rfl, hvalue⟩
  exact mem_pair.2 ⟨_, string_mem_quoted key, [], nil_mem_space, [], nil_mem_space, _, hvalue,
    by simp [memberText]⟩

theorem string_mem_bare (s : String) : (string s).toList ∈ (Value.string s).bare := by
  rw [Value.bare]
  exact string_mem_quoted s

theorem number_mem_bare (n : Nat) : (toString n).toList ∈ (Value.number n).bare := by
  rw [Value.bare, Nat.toString_eq_ofList_toDigits, String.toList_ofList]
  exact number?_toDigits n

theorem bool_mem_bare (b : Bool) : (bool b).toList ∈ (Value.bool b).bare := by
  rw [Value.bare]
  cases b <;> rfl

/-! ## Diagnostics -/

theorem label_mem_bare (l : Label) : (label l).toList ∈ (labelValue l).bare :=
  object_mem_bare <| .cons ⟨rfl, number_mem_bare _⟩ <| .cons ⟨rfl, number_mem_bare _⟩ <|
    .cons ⟨rfl, number_mem_bare _⟩ <| .cons ⟨rfl, string_mem_bare _⟩ <|
    .cons ⟨rfl, bool_mem_bare _⟩ .nil

theorem diagnostic_mem_bare (d : Diagnostic) :
    (diagnostic d).toList ∈ (diagnosticValue d).bare := by
  have hfile : ((d.file.map string).getD "null").toList ∈
      (d.file.elim Value.null .string).bare := by
    cases d.file with
    | none =>
      simp only [Option.map_none, Option.getD_none, Option.elim_none, Value.bare]
      rfl
    | some file => exact string_mem_bare file
  exact object_mem_bare <| .cons ⟨rfl, string_mem_bare _⟩ <| .cons ⟨rfl, string_mem_bare _⟩ <|
    .cons ⟨rfl, string_mem_bare _⟩ <| .cons ⟨rfl, hfile⟩ <|
    .cons ⟨rfl, array_mem_bare fun l _ => label_mem_bare l⟩ <|
    .cons ⟨rfl, array_mem_bare fun s _ => string_mem_bare s⟩ <|
    .cons ⟨rfl, array_mem_bare fun s _ => string_mem_bare s⟩ .nil

/-- The report on diagnostics is a text of their array, and a line feed. -/
theorem report_eq (ds : List Diagnostic) :
    ∃ body : List Char, report ds = String.ofList body ++ "\n" ∧
      body ∈ (Value.array (ds.map diagnosticValue)).texts := by
  have htexts : ∀ {w : List Char}, w ∈ separated ((ds.map diagnosticValue).map Value.bare) →
      '[' :: (w ++ [']']) ∈ (Value.array (ds.map diagnosticValue)).texts := by
    intro w hw
    have hbare : '[' :: (w ++ [']']) ∈ (Value.array (ds.map diagnosticValue)).bare := by
      rw [Value.bare, mem_between]
      exact ⟨w, hw, rfl⟩
    exact Value.mem_texts.2 ⟨[], nil_mem_space, _, hbare, [], nil_mem_space, by simp⟩
  cases ds with
  | nil => exact ⟨_, rfl, htexts nil_mem_space⟩
  | cons d ds =>
    have hgap : "\n  ".toList ∈ space := List.all_eq_true.1 (by decide)
    have hline : "\n".toList ∈ space := List.all_eq_true.1 (by decide)
    have hitems : List.Forall₂ (· ∈ ·) (((d :: ds).map diagnostic).map String.toList)
        (((d :: ds).map diagnosticValue).map Value.bare) := by
      simp only [List.forall₂_map_left_iff, List.forall₂_map_right_iff, List.forall₂_same]
      exact fun d _ => diagnostic_mem_bare d
    have hbody : String.intercalate ",\n  " ((d :: ds).map diagnostic) ≠ "" := by
      rw [ne_eq, ← String.toList_inj, String.toList_intercalate, List.map_cons, List.map_cons,
        intercalate_cons, diagnostic, toList_object]
      simp
    refine ⟨_, ?_, htexts (intercalate_mem_separated hitems (by simp) hgap hgap hline)⟩
    apply String.toList_inj.1
    rw [report, if_neg (mt String.isEmpty_iff.1 hbody)]
    simp [String.toList_intercalate]

/-! ## What is known from a report -/

theorem codeName_injective : Function.Injective Code.name := by
  have hall : ∀ a ∈ Code.all, ∀ b ∈ Code.all, a.name = b.name → a = b := by decide
  exact fun a b => hall a a.mem_all b b.mem_all

theorem severityName_injective : Function.Injective Severity.name := by
  intro a b
  cases a <;> cases b <;> decide

theorem labelValue_injective : Function.Injective labelValue := by
  rintro ⟨⟨_, _, _⟩, _, _⟩ ⟨⟨_, _, _⟩, _, _⟩ h
  simpa [labelValue, and_assoc] using h

theorem diagnosticValue_injective : Function.Injective diagnosticValue := by
  rintro ⟨code, severity, message, file, labels, notes, help⟩
    ⟨code', severity', message', file', labels', notes', help'⟩ h
  simp only [diagnosticValue, Value.object.injEq, List.cons.injEq, Prod.mk.injEq,
    Value.string.injEq, Value.array.injEq, true_and, and_true] at h
  obtain ⟨hcode, hseverity, rfl, hfile, hlabels, hnotes, hhelp⟩ := h
  obtain rfl := codeName_injective hcode
  obtain rfl := severityName_injective hseverity
  obtain rfl : file = file' := by
    cases file <;> cases file' <;> simp_all
  have hstring : Function.Injective Value.string := fun _ _ => Value.string.inj
  obtain rfl := labelValue_injective.list_map hlabels
  obtain rfl := hstring.list_map hnotes
  obtain rfl := hstring.list_map hhelp
  rfl

/-- What is written when a buffer is flushed is a text of one array and a line feed. The array
has an object for each diagnostic that waited, in order; the text has no other value, and it is
written for these diagnostics only. Nothing waits then, so that the next flush writes a text of
the empty array. -/
theorem mem_texts_flush (b : Buffer) (ds : List Diagnostic) :
    ∃ body : List Char, (b.add ds).flush = (String.ofList body ++ "\n", .empty) ∧
      (∀ v : Value, body ∈ v.texts ↔ v = .array ((b.pending ++ ds).map diagnosticValue)) ∧
      (∀ es : List Diagnostic, (b.add es).flush = (b.add ds).flush ↔ es = ds) ∧
      (b.add ds).flush.2.flush = ("[]\n", .empty) ∧
      ∀ v : Value, "[]".toList ∈ v.texts ↔ v = .array [] := by
  have hvalue : ∀ {body : List Char} {a : Value}, body ∈ a.texts →
      ∀ v : Value, body ∈ v.texts ↔ v = a := by
    intro body a ha v
    exact ⟨fun hv => Value.eq_of_mem_texts hv ha, fun heq => heq ▸ ha⟩
  have hsame : ∀ {s t : List Char}, String.ofList s ++ "\n" = String.ofList t ++ "\n" → s = t := by
    intro s t h
    simpa using congrArg String.toList h
  obtain ⟨body, hreport, hbody⟩ := report_eq (b.pending ++ ds)
  obtain ⟨empty, hnone, hempty⟩ := report_eq []
  obtain rfl : "[]".toList = empty := hsame hnone
  refine ⟨body, by rw [← hreport]; rfl, hvalue hbody, fun es => ⟨fun h => ?_, fun h => h ▸ rfl⟩,
    rfl, hvalue hempty⟩
  obtain ⟨body', hreport', hbody'⟩ := report_eq (b.pending ++ es)
  have htexts : report (b.pending ++ es) = report (b.pending ++ ds) := congrArg Prod.fst h
  obtain rfl : body' = body := hsame (by rw [← hreport', ← hreport, htexts])
  have harray := Value.array.inj (Value.eq_of_mem_texts hbody' hbody)
  exact List.append_cancel_left (diagnosticValue_injective.list_map harray)

end Json

end Polyglot
