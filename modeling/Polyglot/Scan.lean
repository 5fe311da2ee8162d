-- SUMMARY: The whole scan of a document, from its text to its fragments and findings.
import Polyglot.Classification
import Polyglot.Outline
import Polyglot.Run
import Polyglot.Unit

/-!
# The scan

The structural pass cuts a document into fragments, boundaries that divide a
statement are repaired, fragments are classified, and neighbours bound for the
same compiler are merged. Every document with text has a scan; faults are
found, not thrown.
-/

namespace Polyglot

/-- What a scan has found. -/
structure Scan where
  /-- The fragments in document order. -/
  fragments : List Fragment
  /-- Errors and warnings in the order they were found. -/
  log : Log
  /-- How many fragment numbers were given out. -/
  issued : Nat

namespace Scan

/-- Add a warning for each encoding finding. -/
def encodingRemarks (text : List Char) (log : Log) : Log :=
  (EncodingIssue.all text).foldl
    (fun log issue => log.warning ((Remark.encoding issue.kind).found issue.position)) log

/-- Add a warning for each fragment with foreign syntax. -/
def foreignRemarks (fs : List Fragment) (log : Log) : Log :=
  fs.foldl (fun log f =>
    match f.foreignSyntax with
    | some (pos, marker) => log.warning ((Remark.foreignSyntax marker f.context).found pos)
    | none => log) log

/-- Scan a document that can be scanned. -/
def ofText (options : Options) (text : List Char) : Scan :=
  let outline := Outline.ofText options text (encodingRemarks text .empty)
  let fs := (Fragment.stitchAll options.stitchWindow outline.fragments).map Fragment.classify
  let (merged, issued) :=
    if options.aggregate then Fragment.aggregate outline.issued fs else (fs, outline.issued)
  ⟨merged, foreignRemarks fs outline.log, issued⟩

/-- Scan a document. One without text and one that is too large are refused. -/
def ofText? (options : Options) (text : List Char) : Except Fault Scan :=
  if text.isEmpty then .error .emptyInput
  else if EncodingIssue.isOversized text then .error .oversizedInput
  else .ok (ofText options text)

/-! ## Counts -/

/-- The contexts that occur, with the number of fragments in each. -/
def contextCounts (s : Scan) : List (Context × Nat) :=
  (Context.all.map fun c => (c, s.fragments.countP (·.context = c))).filter (0 < ·.2)

/-- The targets that occur, with the number of fragments for each. -/
def targetCounts (s : Scan) : List (Target × Nat) :=
  (Target.all.map fun t => (t, s.fragments.countP (·.target = t))).filter (0 < ·.2)

/-! ## Units -/

/-- Add the minimal units of a fragment to those already made, last one first. -/
def addUnits : List Fragment × Nat → Fragment → List Fragment × Nat
  | (done, issued), f =>
    let units := f.minimalUnits issued
    (units.reverse ++ done, issued + units.length)

/-- Take the minimal units of every fragment, in document order. Their numbers go on
from those that were given out, and count as given out in the scan that is left. -/
def takeUnits (s : Scan) : List Fragment × Scan :=
  let (done, issued) := s.fragments.foldl addUnits ([], s.issued)
  (done.reverse, { s with issued := issued })

/-- The minimal units of a scan. -/
def minimalUnits (s : Scan) : List Fragment := s.takeUnits.1

end Scan

/-- The diagnostics of a document. One that is refused has a single diagnostic. -/
def diagnose (file : String) (options : Options) (text : List Char) : List Diagnostic :=
  match Scan.ofText? options text with
  | .ok scan => scan.log.diagnostics (some file)
  | .error fault => [(fault.found .start).toDiagnostic (some file)]

end Polyglot
