-- SUMMARY: Merging neighbouring fragments that go to the same compiler.
import Polyglot.Boundary

/-!
# Runs of fragments

`aggregate` divides a list of fragments into maximal runs of neighbours in one
scope and context that go to the same compiler, and makes one fragment of each.
A run of several fragments gets a fresh number; a fragment on its own keeps its
number.
-/

namespace Polyglot

namespace Fragment

/-- Two neighbours may become one fragment. -/
def mergeable (f g : Fragment) : Bool := f.precedes g && f.target = g.target

/-- The fragments of a run as one, under the frame of the first. -/
def mergeRun (f : Fragment) (more : List Fragment) (id : FragmentId) : Fragment :=
  { f with
    id := id
    content := f.content ++ (more.map Fragment.content).flatten
    stop := (more.getLastD f).stop
    features := more.foldl (fun features g => features.union g.features) f.features
    literals := f.literals ++ (more.map Fragment.literals).flatten }

/-- Add what becomes of a run to the fragments already made, last one first. -/
def addRun : List Fragment × Nat → List Fragment → List Fragment × Nat
  | (done, issued), [] => (done, issued)
  | (done, issued), [f] => (f :: done, issued)
  | (done, issued), f :: more => (f.mergeRun more issued :: done, issued + 1)

/-- Merge every run of fragments. `issued` numbers were given out before; the
second result counts those of the merged runs too. -/
def aggregate (issued : Nat) (fs : List Fragment) : List Fragment × Nat :=
  let (done, issued) := (fs.splitBy mergeable).foldl addRun ([], issued)
  (done.reverse, issued)

end Fragment

end Polyglot
