-- SUMMARY: A listing has one line for each fragment or unit, whatever their text is.
import Mathlib.Data.List.Flatten
import Polyglot.Listing
import Polyglot.Proofs.Quoted
import Polyglot.Proofs.Scan

/-!
# The lines of a listing

Everything on the line of a fragment but its preview is put together from names and
numbers, and a preview is on one line (`Quoted.preview_reads`). So the lines of a listing
are the one on the document, one for each fragment or unit in order, and for fragments the
one on their contexts (`Listing.Shows`). No text of a document adds a line or removes one.
-/

namespace Polyglot

variable {s t : List Char}

/-! ## Parts of a line -/

@[simp] theorem oneLine_append_iff : OneLine (s ++ t) ↔ OneLine s ∧ OneLine t :=
  List.forall_mem_append

@[simp] theorem oneLine_cons_iff {c : Char} :
    OneLine (c :: s) ↔ (isControl c = false ∧ isLineBreak c = false) ∧ OneLine s :=
  List.forall_mem_cons

@[simp] theorem oneLine_nil : OneLine [] := fun c hc => by cases hc

@[simp] theorem oneLine_decimal (n : Nat) : OneLine (Nat.toDigits 10 n) :=
  oneLine_toDigits (by decide) (by decide) n

/-- A text is written as it is. -/
@[simp] theorem toString_string (s : String) : toString s = s := rfl

@[simp] theorem oneLine_context (c : Context) : OneLine c.name.toList := by cases c <;> decide

@[simp] theorem oneLine_target (t : Target) : OneLine t.name.toList := by cases t <;> decide

theorem oneLine_marker (m : Marker) : OneLine m.name.toList := by cases m <;> decide

/-- Texts put together on one line are on one line. -/
theorem oneLine_intercalate {separator : String} {parts : List String}
    (hseparator : OneLine separator.toList) (hparts : ∀ part ∈ parts, OneLine part.toList) :
    OneLine (String.intercalate separator parts).toList := by
  rw [String.toList_intercalate]
  induction parts with
  | nil => exact fun c hc => by cases hc
  | cons part parts ih =>
    obtain ⟨hpart, hmore⟩ := List.forall_mem_cons.1 hparts
    cases parts with
    | nil => simpa using hpart
    | cons next parts =>
      rw [List.map_cons, List.map_cons, List.intercalate_cons_cons]
      exact (hpart.append hseparator).append (ih hmore)

/-- What is said of a fragment in front of its text is on one line. -/
theorem oneLine_describe (f : Fragment) : OneLine f.describe.toList := by
  have hfeatures : OneLine (if f.features.isExtension then
      " [" ++ String.intercalate "," (f.features.toList.map Marker.name) ++ "]"
      else "").toList := by
    split
    · have hnames : OneLine (String.intercalate "," (f.features.toList.map Marker.name)).toList :=
        oneLine_intercalate (by decide) (List.forall_mem_map.2 fun m _ => oneLine_marker m)
      simp only [String.toList_append, oneLine_append_iff]
      exact ⟨⟨by decide, hnames⟩, by decide⟩
    · decide
  have hdegraded : OneLine (if f.degraded then " degraded" else "").toList := by
    split <;> decide
  simp +decide [Fragment.describe, Position.lineColumn, FragmentId.name, hfeatures, hdegraded]

namespace Listing

/-! ## Lines -/

/-- No character ends a line. -/
def Unbroken (row : List Char) : Prop := ∀ c ∈ row, isLineBreak c = false

instance (row : List Char) : Decidable (Unbroken row) :=
  decidable_of_iff (row.all fun c => !isLineBreak c) (by simp [Unbroken])

/-- The lines of a text in which a line feed ends every line. -/
def lines (text : String) : List (List Char) := (text.toList.splitOn '\n').dropLast

variable {α : Type} {rows : List (List Char)}

theorem unbroken_of_oneLine (h : OneLine s) : Unbroken s := fun c hc => (h c hc).2

theorem Unbroken.not_mem (h : Unbroken s) : '\n' ∉ s :=
  fun hmem => absurd (h '\n' hmem) (by decide)

/-- Lines that are put behind each other are divided again where they end. -/
theorem splitOn_rows (h : ∀ row ∈ rows, Unbroken row) :
    (rows.flatMap (· ++ ['\n'])).splitOn '\n' = rows ++ [[]] := by
  induction rows with
  | nil => rfl
  | cons row rows ih =>
    obtain ⟨hrow, hrows⟩ := List.forall_mem_cons.1 h
    rw [List.flatMap_cons, List.append_assoc, List.singleton_append, List.splitOn_append_cons_self,
      List.splitOn_eq_singleton hrow.not_mem, ih hrows, List.singleton_append, List.cons_append]

/-- A listing shows some items if each has its line in it, in order, behind a first line and
with some lines behind them, and if no line holds anything that ends a line. -/
structure Shows (out : String) (line : α → String) (items : List α) (behind : Nat) : Prop where
  ended : out.toList.getLast? = some '\n'
  length : (lines out).length = 1 + items.length + behind
  inOrder : (((lines out).drop 1).take items.length).map (· ++ ['\n']) =
    items.map fun x => (line x).toList
  unbroken : ∀ row ∈ lines out, Unbroken row

theorem shows_of_rows {out : String} {line : α → String} {items : List α} {head : List Char}
    {behind : List (List Char)}
    (hout : out.toList = (head ++ ['\n']) ++ items.flatMap (fun x => (line x).toList) ++
      behind.flatMap (· ++ ['\n']))
    (hhead : Unbroken head) (hline : ∀ x, ∃ row, (line x).toList = row ++ ['\n'] ∧ OneLine row)
    (hbehind : ∀ row ∈ behind, Unbroken row) : Shows out line items behind.length := by
  choose row hrow hone using hline
  let rows := [head] ++ items.map row ++ behind
  have hunbroken : ∀ r ∈ rows, Unbroken r := by
    refine List.forall_mem_append.2 ⟨List.forall_mem_cons.2 ⟨hhead, ?_⟩, hbehind⟩
    exact List.forall_mem_map.2 fun x _ => unbroken_of_oneLine (hone x)
  have htext : out.toList = rows.flatMap (· ++ ['\n']) := by
    rw [hout]
    simp [rows, List.flatMap_map, hrow]
  have hlines : lines out = rows := by
    rw [lines, htext, splitOn_rows hunbroken, List.dropLast_concat]
  refine ⟨?_, ?_, ?_, ?_⟩
  · rcases List.eq_nil_or_concat rows with hnil | ⟨front, last, hlast⟩
    · simp [rows] at hnil
    · rw [htext, hlast]
      simp
  · rw [hlines]
    simp [rows]
    omega
  · rw [hlines]
    simp [rows, hrow]
  · rw [hlines]
    exact hunbroken

/-! ## The two listings -/

theorem fragmentLine_spec (f : Fragment) :
    ∃ row, (fragmentLine f).toList = row ++ ['\n'] ∧ OneLine row := by
  have hpreview := (Quoted.preview_reads fragmentPreview f.content).oneLine
  have hdescribe := oneLine_describe f
  refine ⟨"  ".toList ++ f.describe.toList ++ "  ".toList ++
    (Quoted.preview fragmentPreview f.content).toList, ?_, ?_⟩
  · simp [fragmentLine]
  · simp +decide [hdescribe, hpreview]

theorem unitLine_spec (u : Fragment) :
    ∃ row, (unitLine u).toList = row ++ ['\n'] ∧ OneLine row := by
  have hpreview := (Quoted.preview_reads unitPreview u.content).oneLine
  refine ⟨"  ".toList ++ (FragmentId.name u.id).toList ++ " ".toList ++ u.target.name.toList ++
    "  ".toList ++ (Quoted.preview unitPreview u.content).toList, ?_, ?_⟩
  · simp [unitLine]
  · simp +decide [FragmentId.name, hpreview]

variable {path : String}

/-- Behind the path, the first line is made of numbers and of words. -/
theorem unbroken_head (hpath : Unbroken path.toList) (hmore : OneLine s) :
    Unbroken (path.toList ++ s) :=
  List.forall_mem_append.2 ⟨hpath, unbroken_of_oneLine hmore⟩

theorem shows_fragments (hpath : Unbroken path.toList) (scan : Scan) :
    Shows (fragments path scan) fragmentLine scan.fragments 1 := by
  let counts := s!": {scan.fragments.length} fragments, {scan.log.errors.length} errors, " ++
    s!"{scan.log.warnings.length} warnings"
  let contexts := scan.contextCounts.map fun count => s!"{count.1.name}={count.2}"
  have hcounts : OneLine counts.toList := by simp +decide [counts]
  have hcontexts : OneLine ("  contexts: " ++ String.intercalate " " contexts).toList := by
    have hcount : ∀ count ∈ contexts, OneLine count.toList := by
      refine List.forall_mem_map.2 fun count _ => ?_
      simp +decide
    rw [String.toList_append, oneLine_append_iff]
    exact ⟨by decide, oneLine_intercalate (by decide) hcount⟩
  have hbehind : ∀ row ∈ [("  contexts: " ++ String.intercalate " " contexts).toList],
      Unbroken row := List.forall_mem_singleton.2 (unbroken_of_oneLine hcontexts)
  refine shows_of_rows ?_ (unbroken_head hpath hcounts) fragmentLine_spec hbehind
  simp [fragments, counts, contexts, List.flatMap_map]

theorem shows_units (hpath : Unbroken path.toList) (scan : Scan) :
    Shows (units path scan) unitLine scan.minimalUnits 0 := by
  let counts := s!": {scan.minimalUnits.length} units"
  have hcounts : OneLine counts.toList := by simp +decide [counts]
  have hbehind : ∀ row ∈ ([] : List (List Char)), Unbroken row := by simp
  refine shows_of_rows ?_ (unbroken_head hpath hcounts) unitLine_spec hbehind
  simp [units, counts, List.flatMap_map]

/-- A preview of any content is on one line, tells the characters that it shows and whether
there are more. So both listings of a document that is not refused have a line for each item,
in order, and no others but the first line and the one on contexts. -/
theorem shows_ofText (limit : Nat) (content : List Char) (hpath : Unbroken path.toList)
    (options : Options) (text : List Char) :
    Quoted.Reads limit content (Quoted.preview limit content) ∧
    ((text = [] ∨ EncodingIssue.sizeLimit < byteLength text) ∧
        (∀ list, ∃ fault : Fault,
          ofText list path options text = .error s!"{path}: {fault.message}") ∨
      ∃ scan, Scan.ofText? options text = .ok scan ∧
        (∃ out, ofText fragments path options text = .ok out ∧
          Shows out fragmentLine scan.fragments 1) ∧
        ∃ out, ofText units path options text = .ok out ∧
          Shows out unitLine scan.minimalUnits 0) := by
  refine ⟨Quoted.preview_reads limit content, ?_⟩
  cases hscan : Scan.ofText? options text with
  | ok scan =>
    refine .inr ⟨scan, rfl, ⟨fragments path scan, ?_, shows_fragments hpath scan⟩,
      units path scan, ?_, shows_units hpath scan⟩
    · rw [ofText, hscan]
    · rw [ofText, hscan]
  | error fault =>
    refine .inl ⟨?_, fun list => ⟨fault, by rw [ofText, hscan]⟩⟩
    by_contra hadmitted
    simp only [not_or, Nat.not_lt] at hadmitted
    rw [Scan.ofText?_eq_ok options hadmitted.1 hadmitted.2] at hscan
    cases hscan

/-- A text that looks like the line of another fragment stays in its preview. -/
theorem shows_ofText_forged : ∃ (scan : Scan) (out : String),
    ofText fragments "a" .standard "p \x7b text \x7b x\"\n  #9 RAW_CSS \x7d \x7d".toList = .ok out ∧
    scan.fragments.length = 3 ∧ Shows out fragmentLine scan.fragments 1 := by
  let text := "p \x7b text \x7b x\"\n  #9 RAW_CSS \x7d \x7d".toList
  have hpath : Unbroken "a".toList := by decide
  obtain ⟨-, ⟨hrefused, -⟩ | ⟨scan, hscan, ⟨out, hout, hshows⟩, -⟩⟩ :=
    shows_ofText 48 [] hpath .standard text
  · exact absurd hrefused (by decide)
  · have hlength : (Scan.ofText .standard text).fragments.length = 3 := by decide +kernel
    rw [← Scan.eq_ofText hscan] at hlength
    exact ⟨scan, out, hout, hlength, hshows⟩

end Listing

end Polyglot
