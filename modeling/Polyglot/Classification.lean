-- SUMMARY: What a fragment holds: dialect markers, bare literals, syntax of another sub-language.
import Polyglot.Dialect
import Polyglot.Undecorated

/-!
# Classification

A fragment is classified by its own text. Only local scripts get features;
bare literals are noted in local scripts, text blocks, style blocks and
elements. Style and script fragments are also searched for syntax that belongs
elsewhere.
-/

namespace Polyglot

namespace Fragment

/-- Note features and literals of a fragment. Fragments of the contexts that
are not listed stay as they are. -/
def classify (f : Fragment) : Fragment :=
  match f.context with
  | .scriptLocal =>
    let scan := FeatureScan.ofCursor f.cursor
    { f with features := scan.features, literals := scan.literals }
  | .textBlock => { f with literals := (textLiteral f.cursor).toList }
  | .styleGlobal | .styleLocal => { f with literals := f.cursor.propertyLiterals [':'] .style }
  | .elementBody => { f with literals := f.cursor.propertyLiterals [':', '='] .template }
  | _ => f

end Fragment

/-! ## Foreign syntax -/

/-- What does not belong into a block of a context. -/
def foreignMarkers : Context → List String
  | .scriptGlobal | .scriptLocal => ["[Template]", "[Custom]"]
  | .styleGlobal | .styleLocal => ["function", "console.log"]
  | _ => []

/-- The marker lies ahead, and no name goes on behind it. -/
def standsAlone (c : Cursor) (marker : String) : Bool :=
  c.startsWith marker.toList && !(c.rest.drop marker.length).head?.any isNamePart

/-- The first marker that stands alone, from a cursor on. `inName` says that
the character before is part of a name. -/
def foreignFrom (markers : List String) (set : GuardSet) (inName : Bool) (c : Cursor) :
    Option (Position × String) :=
  match c.front set with
  | .finish | .openRegion _ _ => none
  | .region _ after => foreignFrom markers set false after.cursor
  | .code ch after =>
    match if inName then none else markers.find? (standsAlone c) with
    | some marker => some (c.position, marker)
    | none => foreignFrom markers set (isNamePart ch) after.cursor
termination_by c.rest.length
decreasing_by all_goals exact Cursor.Later.length_lt _

/-- The first syntax of another sub-language in a style or script fragment, and
where it stands. Strings and comments are passed over. -/
def Fragment.foreignSyntax (f : Fragment) : Option (Position × String) :=
  match foreignMarkers f.context with
  | [] => none
  | markers => foreignFrom markers f.context.guardSet false f.cursor

end Polyglot
