-- SUMMARY: Listings of the fragments and of the minimal units of a document.
import Polyglot.Scan
import Polyglot.Text.Quoted

/-!
# Listings

A listing shows the fragments or the units of a document, one on a line, each
with the beginning of its text. The previews are quoted, so no text of the
document can add a line to a listing.
-/

namespace Polyglot

namespace Listing

/-- How much of a fragment's text is shown. -/
def fragmentPreview : Nat := 48

/-- How much of a unit's text is shown. -/
def unitPreview : Nat := 64

/-- The line of a fragment. -/
def fragmentLine (f : Fragment) : String :=
  s!"  {f.describe}  {Quoted.preview fragmentPreview f.content}\n"

/-- The line of a unit. -/
def unitLine (u : Fragment) : String :=
  s!"  {FragmentId.name u.id} {u.target.name}  {Quoted.preview unitPreview u.content}\n"

/-- The fragments of a scan, between a line with the totals and one with the
number of fragments in each context. -/
def fragments (path : String) (scan : Scan) : String :=
  let count := scan.fragments.length
  let errors := scan.log.errors.length
  let warnings := scan.log.warnings.length
  let contexts := scan.contextCounts.map fun (c, n) => s!"{c.name}={n}"
  s!"{path}: {count} fragments, {errors} errors, {warnings} warnings\n" ++
    String.join (scan.fragments.map fragmentLine) ++
    "  contexts: " ++ String.intercalate " " contexts ++ "\n"

/-- The minimal units of a scan, after a line with their number. -/
def units (path : String) (scan : Scan) : String :=
  let units := scan.minimalUnits
  s!"{path}: {units.length} units\n" ++ String.join (units.map unitLine)

/-- Scan a document and list it, or say why it is refused. -/
def ofText (list : String → Scan → String) (path : String) (options : Options)
    (text : List Char) : Except String String :=
  match Scan.ofText? options text with
  | .ok scan => .ok (list path scan)
  | .error fault => .error s!"{path}: {fault.message}"

end Listing

end Polyglot
