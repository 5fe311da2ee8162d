-- SUMMARY: Diagnostics are drawn under their line, with the caret at their column.
import Polyglot.Diagnostic.Terminal
import Polyglot.Proofs.Place

/-!
# Where carets stand

A report names a line by the number that the scan has counted, finds its text by the
offset, and indents the caret by the column. All three come from one walk over the text
before the position, so they agree with the lines that the document is split into
(`Terminal.draws_diagnose`).
-/

namespace Polyglot

/-! ## Lines -/

/-- A line without the carriage return that ends it. -/
def withoutReturn (line : List Char) : List Char :=
  if line.getLast? = some '\r' then line.dropLast else line

/-- The lines of a document. A line feed ends a line, with a carriage return before it. -/
def documentLines (text : List Char) : List (List Char) := (text.splitOn '\n').map withoutReturn

/-- What a text has behind its last line feed. -/
def lastLine (text : List Char) : List Char := (text.reverse.takeWhile (· != '\n')).reverse

/-- What a text has ahead of its first line feed. -/
def firstLine (text : List Char) : List Char := text.takeWhile (· != '\n')

variable {text before behind row : List Char} {c : Char}

@[simp] theorem lastLine_nil : lastLine [] = [] := rfl

@[simp] theorem lastLine_feed (text : List Char) : lastLine (text ++ ['\n']) = [] := by
  simp [lastLine]

theorem lastLine_append_singleton (text : List Char) (hc : c ≠ '\n') :
    lastLine (text ++ [c]) = lastLine text ++ [c] := by
  simp [lastLine, hc]

theorem firstLine_cons (text : List Char) (hc : c ≠ '\n') :
    firstLine (c :: text) = c :: firstLine text := by
  simp [firstLine, hc]

theorem length_splitOn_feed (text : List Char) :
    (text.splitOn '\n').length = text.count '\n' + 1 := by
  induction text with
  | nil => rfl
  | cons c text ih =>
    rw [List.splitOn_cons_eq_if_modifyHead, List.count_cons]
    split
    · rw [List.length_cons, ih]
    · rw [List.length_modifyHead, ih, Nat.add_zero]

theorem head?_splitOn_feed (text : List Char) :
    (text.splitOn '\n').head? = some (firstLine text) := by
  induction text with
  | nil => rfl
  | cons c text ih =>
    rw [List.splitOn_cons_eq_if_modifyHead]
    split
    · next hc => simp [firstLine, eq_of_beq hc]
    · next hc => rw [List.head?_modifyHead, ih, firstLine_cons text (by simpa using hc)]; rfl

/-- The line of a place in a text is made of what is ahead of it and behind it. -/
theorem getElem?_splitOn_feed (before behind : List Char) :
    ((before ++ behind).splitOn '\n')[before.count '\n']? =
      some (lastLine before ++ firstLine behind) := by
  induction before using List.reverseRecOn generalizing behind with
  | nil => rw [List.nil_append, List.count_nil, ← List.head?_eq_getElem?, head?_splitOn_feed]; rfl
  | append_singleton before c ih =>
    rw [List.append_assoc, List.singleton_append, List.count_append]
    by_cases hc : c = '\n'
    · subst hc
      rw [List.splitOn_append_cons_self, List.getElem?_append_right (by simp [length_splitOn_feed]),
        length_splitOn_feed, lastLine_feed]
      simp [← List.head?_eq_getElem?, head?_splitOn_feed]
    · have hcount : [c].count '\n' = 0 := by simp [hc]
      rw [hcount, Nat.add_zero, ih, firstLine_cons behind hc, lastLine_append_singleton before hc,
        List.append_assoc, List.singleton_append]

/-- The number of a line counts the line feeds ahead of it. -/
theorem Position.line_advanceOver (before : List Char) :
    (start.advanceOver before).line = before.count '\n' + 1 := by
  induction before using List.reverseRecOn with
  | nil => rfl
  | append_singleton before c ih =>
    rw [advanceOver_append, List.count_append]
    by_cases hc : c = '\n'
    · simp [advance, hc, ih]
    · simp [advance, hc, ih]

/-- The column counts the characters of the line ahead of it. -/
theorem Position.column_advanceOver (before : List Char) :
    (start.advanceOver before).column = (lastLine before).length + 1 := by
  induction before using List.reverseRecOn with
  | nil => rfl
  | append_singleton before c ih =>
    rw [advanceOver_append]
    by_cases hc : c = '\n'
    · simp [advance, hc]
    · simp [advance, hc, ih, lastLine_append_singleton before hc]

/-- A character that is no carriage return keeps its place in the line. -/
theorem getElem?_withoutReturn {i : Nat} (h : row[i]? = some c) (hc : c ≠ '\r') :
    (withoutReturn row)[i]? = some c := by
  unfold withoutReturn
  split
  · next hlast =>
    obtain ⟨front, rfl⟩ := List.getLast?_eq_some_iff.1 hlast
    rw [List.dropLast_concat]
    obtain hi | hi := Nat.lt_or_ge i front.length
    · rwa [List.getElem?_append_left hi] at h
    · rw [List.getElem?_append_right hi, List.getElem?_singleton] at h
      split at h
      · exact absurd (Option.some.inj h).symm hc
      · cases h
  · exact h

/-! ## Labels -/

namespace Terminal

/-- The row of a line of the document, with its number. -/
def lineRow (colors : Bool) (n : Nat) (line : List Char) : String :=
  let number := toString n
  paint colors .gutter s!"{number} |" ++ " " ++ String.ofList line ++ "\n"

/-- The row under a line: the margin is as wide as the number, and the label's message
stands behind its caret. -/
def caretRow (colors : Bool) (d : Diagnostic) (l : Label) (blanks : List Char) : String :=
  let margin := String.ofList (List.replicate (toString l.position.line).length ' ')
  let caret := "^"
  paint colors .gutter s!"{margin} |" ++ " " ++ String.ofList blanks ++
    paint colors (.ofSeverity d.severity) s!"{caret} {l.message}" ++ "\n"

/-- The label of a diagnostic is drawn under a line of the document, behind some blanks. -/
structure Draws (colors : Bool) (text : List Char) (d : Diagnostic) (l : Label)
    (row blanks : List Char) : Prop where
  labels : d.labels = [l]
  primary : d.primaryPosition = some l.position
  /-- The line is the one with the label's number. -/
  numbered : 0 < l.position.line ∧ (documentLines text)[l.position.line - 1]? = some row
  /-- The line is printed beside its number, and the caret right under it. -/
  rows : ∃ above below, render colors (some text) d =
    above ++ lineRow colors l.position.line row ++ caretRow colors d l blanks ++ below
  width : blanks.length + 1 = l.position.column
  /-- There is a tab under each tab, and a space under anything else. -/
  tabs : ∀ i < blanks.length, blanks[i]? = some (if row[i]? = some '\t' then '\t' else ' ')
  /-- The character at the label's offset is the one above the caret. Only a document that is
  too large can have a line end there. -/
  stands : ∀ before c behind, text = before ++ c :: behind →
    byteLength before = l.position.offset → row[blanks.length]? = some c ∨
      EncodingIssue.isOversized text = true ∧ (c = '\n' ∨ c = '\r')

variable {colors : Bool} {d : Diagnostic} {l : Label}

/-- The line that the offset of a place lies on. -/
theorem lineAt_byteLength (before behind : List Char) :
    lineAt (before ++ behind) (byteLength before) =
      some (withoutReturn (lastLine before ++ firstLine behind)) := by
  unfold lineAt
  rw [splitBytes_byteLength]
  simp only [Nat.lt_irrefl, decide_false, Bool.false_and, Bool.false_eq_true, if_false]
  rfl

theorem length_indent {column : Nat} (h : column ≤ row.length) :
    (indent row (column + 1)).length = column := by
  rw [indent, List.length_map, List.length_take, Nat.add_sub_cancel, Nat.min_eq_left h]

theorem getElem?_indent {column i : Nat} (h : i < (indent row column).length) :
    (indent row column)[i]? = some (if row[i]? = some '\t' then '\t' else ' ') := by
  have hi : i < row.length := by
    rw [indent, List.length_map, List.length_take] at h
    omega
  rw [List.getElem?_eq_getElem h]
  simp [indent, List.getElem?_eq_getElem hi]

/-- A snippet ends with the row of the line and that of the caret. -/
theorem snippet_rows (colors : Bool) (d : Diagnostic) (row : List Char)
    (hprimary : l.isPrimary = true) : ∃ above, snippet colors d l row =
    above ++ lineRow colors l.position.line row ++
      caretRow colors d l (indent row l.position.column) := by
  let margin := String.ofList (List.replicate (toString l.position.line).length ' ')
  refine ⟨s!"{margin} {l.arrow} {d.location l.position}\n" ++
    paint colors .gutter s!"{margin} |" ++ "\n", ?_⟩
  unfold snippet lineRow caretRow labelRole
  simp only [hprimary, if_true, String.append_assoc, margin]

/-- A report with one label has the rows of its snippet. -/
theorem render_rows (hlabels : d.labels = [l]) (hprimary : l.isPrimary = true)
    (hline : lineAt text l.position.offset = some row) :
    ∃ above below, render colors (some text) d = above ++ lineRow colors l.position.line row ++
      caretRow colors d l (indent row l.position.column) ++ below := by
  obtain ⟨above, hsnippet⟩ := snippet_rows colors d row hprimary
  have hlabel : String.join (d.labels.map (label colors (some text) d)) =
      snippet colors d l row := by
    rw [hlabels]
    simp [label, hline]
  refine ⟨paint colors (.ofSeverity d.severity) d.severity.name ++
    paint colors .code s!"[{d.code.name}]" ++ s!": {d.message}\n" ++ above,
    String.join (d.notes.map (remark colors .note "note")) ++
      String.join (d.help.map (remark colors .help "help")) ++ "\n", ?_⟩
  rw [render, hlabel, hsnippet]
  simp only [String.append_assoc]

/-! ## Places -/

/-- The place has a character ahead that is no line end. At the start of a document that
is too large it may have anything ahead. -/
def IsShown (before behind : List Char) : Prop :=
  (∃ c rest, behind = c :: rest ∧ c ≠ '\n' ∧ c ≠ '\r') ∨
    before = [] ∧ (behind = [] ∨ EncodingIssue.isOversized behind = true)

/-- The character ahead of a place follows the line before it. -/
theorem getElem?_line (before rest : List Char) (hfeed : c ≠ '\n') (hreturn : c ≠ '\r') :
    (withoutReturn (lastLine before ++ firstLine (c :: rest)))[(lastLine before).length]? =
      some c := by
  refine getElem?_withoutReturn ?_ hreturn
  rw [List.getElem?_append_right (Nat.le_refl _), Nat.sub_self, firstLine_cons rest hfeed]
  rfl

/-- A label at such a place is drawn under its line. -/
theorem draws_of_isShown (colors : Bool) (hlabels : d.labels = [l]) (hprimary : l.isPrimary = true)
    (hposition : l.position = Position.start.advanceOver before) (hshown : IsShown before behind) :
    ∃ row blanks, Draws colors (before ++ behind) d l row blanks := by
  let row := withoutReturn (lastLine before ++ firstLine behind)
  have hoffset : l.position.offset = byteLength before := by
    rw [hposition, Position.advanceOver_offset]
    exact Nat.zero_add _
  have hnumber : l.position.line = before.count '\n' + 1 := by
    rw [hposition, Position.line_advanceOver]
  have hcolumn : l.position.column = (lastLine before).length + 1 := by
    rw [hposition, Position.column_advanceOver]
  have hfit : (lastLine before).length ≤ row.length := by
    obtain ⟨c, rest, rfl, hfeed, hreturn⟩ | ⟨rfl, -⟩ := hshown
    · have hahead := getElem?_line before rest hfeed hreturn
      exact Nat.le_of_lt (List.getElem?_eq_some_iff.1 hahead).1
    · exact Nat.zero_le _
  have hwidth : (indent row l.position.column).length = (lastLine before).length := by
    rw [hcolumn, length_indent hfit]
  refine ⟨row, indent row l.position.column, hlabels, ?_, ⟨?_, ?_⟩, ?_, ?_, ?_, ?_⟩
  · simp [Diagnostic.primaryPosition, hlabels, hprimary]
  · omega
  · rw [documentLines, hnumber, Nat.add_sub_cancel, List.getElem?_map, getElem?_splitOn_feed]
    rfl
  · exact render_rows hlabels hprimary (hoffset ▸ lineAt_byteLength before behind)
  · rw [hwidth, hcolumn]
  · exact fun i hi => getElem?_indent hi
  · intro before' c behind' htext hsame
    -- the offset tells the place, so it is the same one
    have hsplit := splitBytes_byteLength before' (c :: behind')
    rw [hsame, hoffset, ← htext, splitBytes_byteLength] at hsplit
    obtain ⟨-, rfl⟩ := Prod.mk.inj hsplit
    rw [hwidth]
    obtain ⟨c', rest, hbehind, hfeed, hreturn⟩ | ⟨rfl, hempty | hsize⟩ := hshown
    · obtain ⟨rfl, rfl⟩ := List.cons.inj hbehind
      exact .inl (getElem?_line before behind' hfeed hreturn)
    · cases hempty
    · by_cases hend : c = '\n' ∨ c = '\r'
      · exact .inr ⟨hsize, hend⟩
      · exact .inl (getElem?_line [] behind' (fun h => hend (.inl h)) fun h => hend (.inr h))

end Terminal

/-! ## Findings -/

/-- The position is that of a character that is no line end. -/
def PointsInto (text : List Char) (pos : Position) : Prop :=
  ∃ c, c ≠ '\n' ∧ c ≠ '\r' ∧ PointsAt text pos [c]

variable {pos : Position}

theorem PointsAt.head {cause : List Char} (h : PointsAt text pos (c :: cause)) :
    PointsAt text pos [c] := by
  obtain ⟨before, behind, htext, hrest⟩ := h
  exact ⟨before, cause ++ behind, by simpa using htext, hrest⟩

theorem PointsAt.pointsInto {cause : List Char} (h : PointsAt text pos (c :: cause))
    (hfeed : c ≠ '\n') (hreturn : c ≠ '\r') : PointsInto text pos :=
  ⟨c, hfeed, hreturn, h.head⟩

theorem PointsInto.isShown (h : PointsInto text pos) : ∃ before behind, text = before ++ behind ∧
    pos = Position.start.advanceOver before ∧ Terminal.IsShown before behind := by
  obtain ⟨c, hfeed, hreturn, before, behind, rfl, -, -, hposition⟩ := h
  exact ⟨before, c :: behind, rfl, hposition, .inl ⟨c, behind, rfl, hfeed, hreturn⟩⟩

/-- No quote of the language is a line end. -/
theorem quotes_script_ne {quote : Char} (h : quote ∈ GuardSet.script.quotes) :
    quote ≠ '\n' ∧ quote ≠ '\r' := by
  have hall : ∀ q ∈ GuardSet.script.quotes, (q != '\n' && q != '\r') = true :=
    List.all_eq_true.1 (by decide)
  simpa using hall quote h

/-- Foreign syntax begins with a character that is no line end. -/
theorem foreignMarkers_head {context : Context} {marker : String}
    (h : marker ∈ foreignMarkers context) :
    ∃ c cause, marker.toList = c :: cause ∧ c ≠ '\n' ∧ c ≠ '\r' := by
  cases context <;> simp only [foreignMarkers, List.mem_cons, List.not_mem_nil, or_false] at h
  all_goals rcases h with rfl | rfl
  all_goals exact ⟨_, _, rfl, by decide, by decide⟩

theorem ScanError.AtCause.pointsInto {e : ScanError} (h : e.AtCause text) :
    PointsInto text e.position := by
  unfold AtCause at h
  split at h
  · obtain ⟨quote, hquote, -, h⟩ := h
    exact h.pointsInto (quotes_script_ne hquote).1 (quotes_script_ne hquote).2
  · exact h.pointsInto (by decide) (by decide)
  · exact h.pointsInto (by decide) (by decide)
  · cases h

theorem ScanWarning.AtCause.pointsInto {w : ScanWarning} (h : w.AtCause text)
    (hforeign : w.kind ≠ .foreignSyntax) : PointsInto text w.position := by
  unfold AtCause at h
  split at h
  · obtain h | h := h
    · exact h.pointsInto (by decide) (by decide)
    · exact h.pointsInto (by decide) (by decide)
  · exact h.pointsInto (by decide) (by decide)
  · next hkind => exact absurd hkind hforeign

namespace Scan

variable {options : Options} {scan : Scan}

/-- Every error of a scan points at a character of a line. -/
theorem errors_pointInto (hsize : EncodingIssue.isOversized text = false) {e : ScanError}
    (he : e ∈ (ofText options text).log.errors) : PointsInto text e.position := by
  rw [(log_eq options text).1] at he
  exact ((isPlaced_outlineLog options hsize).errors e he).pointsInto

/-- Every warning of a scan points at a character of a line. -/
theorem warnings_pointInto (hsize : EncodingIssue.isOversized text = false) {w : ScanWarning}
    (hw : w ∈ (ofText options text).log.warnings) : PointsInto text w.position := by
  rw [(log_eq options text).2] at hw
  rcases List.mem_append.1 hw with hw | hw
  · exact ((isPlaced_outlineLog options hsize).warnings w hw).pointsInto
      (outlineLog_quiet options text w hw)
  · obtain ⟨context, marker, hmarker, -, hpoints⟩ := remarks_pointsAt hw
    obtain ⟨c, cause, hhead, hfeed, hreturn⟩ := foreignMarkers_head hmarker
    exact (hhead ▸ hpoints).pointsInto hfeed hreturn

end Scan

/-- Every diagnostic of a document has one label, at a place that is shown. -/
theorem diagnose_isShown {file : String} {options : Options} {d : Diagnostic}
    (hd : d ∈ diagnose file options text) : ∃ l before behind, d.labels = [l] ∧
      l.isPrimary = true ∧ text = before ++ behind ∧
      l.position = Position.start.advanceOver before ∧ Terminal.IsShown before behind := by
  unfold diagnose at hd
  split at hd
  · next scan hscan =>
    have hsize := Scan.isOversized_of_ok hscan
    obtain rfl := Scan.eq_ofText hscan
    rcases List.mem_append.1 hd with hd | hd
    · obtain ⟨e, he, rfl⟩ := List.mem_map.1 hd
      obtain ⟨before, behind, hshown⟩ := (Scan.errors_pointInto hsize he).isShown
      exact ⟨_, before, behind, rfl, rfl, hshown⟩
    · obtain ⟨w, hw, rfl⟩ := List.mem_map.1 hd
      obtain ⟨before, behind, hshown⟩ := (Scan.warnings_pointInto hsize hw).isShown
      exact ⟨_, before, behind, rfl, rfl, hshown⟩
  · next fault hfault =>
    rw [List.mem_singleton.1 hd]
    refine ⟨_, [], text, rfl, rfl, rfl, rfl, .inr ⟨rfl, ?_⟩⟩
    unfold Scan.ofText? at hfault
    split at hfault
    · next hempty => exact .inl (List.isEmpty_iff.1 hempty)
    · split at hfault
      · next hsize => exact .inr hsize
      · cases hfault

/-- Every diagnostic is drawn under its line, with the caret under its character. -/
theorem Terminal.draws_diagnose (file : String) (options : Options) (colors : Bool)
    {d : Diagnostic} (hd : d ∈ diagnose file options text) :
    ∃ l row blanks, Draws colors text d l row blanks := by
  obtain ⟨l, before, behind, hlabels, hprimary, rfl, hposition, hshown⟩ := diagnose_isShown hd
  exact ⟨l, draws_of_isShown colors hlabels hprimary hposition hshown⟩

/-- A string that is opened behind a tab and a letter of two bytes, on a second line. -/
theorem Terminal.draws_diagnose_string : ∃ text d, d ∈ diagnose "page.chtl" .standard text ∧
    d.primaryPosition = some ⟨8, 2, 3⟩ ∧ ∃ l row blanks, Draws false text d l row blanks := by
  let text := "p \x7b\r\n\té\"x\r\n".toList
  let d := ((Fault.unterminatedString 0x22).found ⟨8, 2, 3⟩).toDiagnostic (some "page.chtl")
  have hd : d ∈ diagnose "page.chtl" .standard text := by decide +kernel
  exact ⟨text, d, hd, rfl, draws_diagnose "page.chtl" .standard false hd⟩

end Polyglot
