-- SUMMARY: Options of a scan.

/-!
# Options

What a scan can be told to do or to leave out. `Options.standard` is what it
does when it is told nothing.
-/

namespace Polyglot

/-- How a document is scanned. -/
structure Options where
  /-- How many bytes on either side of a boundary decide whether it is joined. -/
  stitchWindow : Nat
  /-- Merge neighbours bound for the same compiler. -/
  aggregate : Bool
  /-- Cut local scripts into statements. -/
  splitStatements : Bool
  /-- Take two hyphens and a blank for a comment in template text. -/
  generatorComments : Bool
  /-- Take the document for the body of an element, so that its style and
  script blocks are local. -/
  rootAsElement : Bool
  deriving DecidableEq

/-- A window of 64 bytes, and everything switched on. -/
def Options.standard : Options := ⟨64, true, true, true, true⟩

end Polyglot
