-- SUMMARY: Fragments: stretches of a document with their context, and where they are sent.
import Polyglot.Context.Stack
import Polyglot.Fragment.Feature
import Polyglot.Text.Trim

/-!
# Fragments

A fragment is a stretch of a document that lies in one context. The fragments
of a scan, read one after the other, are the document. A fragment's context
and features decide which compiler it is sent to.
-/

namespace Polyglot

/-- The number of a fragment, given out once in a scan. It is stored in 32 bits, and how many
are given out is bounded by the length of the document (`Scan.within_scan`). -/
abbrev FragmentId := Nat

/-- The form of a fragment's number in listings. -/
def FragmentId.name (id : FragmentId) : String := s!"#{id}"

/-- A bare word or text in the place of a value, and the offset it begins at.
It is recorded for later compilers and decides nothing here. -/
structure Literal where
  offset : Nat
  text : List Char
  deriving DecidableEq

/-! ## Targets -/

/-- The compilers that fragments are sent to. -/
inductive Target where
  | template
  | css
  | script
  | scriptExtension
  /-- None: the text is kept as it is. -/
  | passthrough
  deriving DecidableEq

namespace Target

/-- Every target, in listing order. -/
def all : List Target := [.template, .css, .script, .scriptExtension, .passthrough]

theorem mem_all (t : Target) : t ∈ all := by cases t <;> decide

/-- The name of a target in listings. -/
def name : Target → String
  | .template => "template"
  | .css => "css"
  | .script => "script"
  | .scriptExtension => "script-extension"
  | .passthrough => "passthrough"

end Target

/-! ## Fragments -/

/-- What a fragment takes over from the context stack at its start. -/
structure Frame where
  context : Context
  /-- The number of open contexts. -/
  nesting : Nat
  /-- The contexts around, outermost first, without the document itself. -/
  parents : List Context
  scope : Scope
  deriving DecidableEq

/-- The frame under the present stack. -/
def Stack.frame (s : Stack) : Frame := ⟨s.current, s.depth, s.enclosing, s.currentScope⟩

/-- A stretch of a document that lies in one context. -/
structure Fragment extends Frame where
  id : FragmentId
  content : List Char
  start : Position
  stop : Position
  features : Features
  literals : List Literal
  /-- Made by error recovery. -/
  degraded : Bool
  deriving DecidableEq

namespace Fragment

/-- Where a fragment is sent. Only local scripts are told apart by features. -/
def target (f : Fragment) : Target :=
  match f.context with
  | .styleGlobal | .styleLocal | .rawCss => .css
  | .scriptLocal => if f.features.isExtension then .scriptExtension else .script
  | .scriptGlobal | .rawScript => .script
  | .rawHtml => .passthrough
  | _ => .template

/-- The cursor at the start of a fragment, which sees nothing after its end. -/
def cursor (f : Fragment) : Cursor := ⟨f.start, f.content⟩

/-- The content without white space around it. -/
def trimmed (f : Fragment) : List Char := trim f.content

/-- `g` begins where `f` stops, both lie in the same scope and context, and
neither was made by error recovery. -/
def precedes (f g : Fragment) : Bool :=
  f.stop.offset = g.start.offset && f.scope = g.scope && f.context = g.context &&
    !f.degraded && !g.degraded

/-- One line on a fragment. -/
def describe (f : Fragment) : String :=
  let span := s!"{f.start.lineColumn}..{f.stop.lineColumn}"
  let features :=
    if f.features.isExtension then
      " [" ++ String.intercalate "," (f.features.toList.map Marker.name) ++ "]"
    else ""
  let degraded := if f.degraded then " degraded" else ""
  FragmentId.name f.id ++ s!" {f.context.name} -> {f.target.name} @{span} depth={f.nesting}" ++
    features ++ degraded

end Fragment

end Polyglot
