-- SUMMARY: Boundaries between fragments: which to remove, which to move.
import Polyglot.Fragment

/-!
# Boundaries

A cut may leave the text on either side of it incomplete. A line may go on in
the next fragment, or a selector in double braces may be divided. `stitch`
looks at a few bytes on either side of one boundary and joins the fragments,
moves the boundary, or keeps it. Text is never lost or reordered.
-/

namespace Polyglot

/-! ## Continuations -/

/-- Operators that no complete statement ends in. -/
def trailingContinuations : List String :=
  ["->", "&&", "||", "??", "\x7b\x7b", ".", ",", "(", "[", "=", "+", "-", "*", "/", "%", "?", ":",
    "!", "<", ">", "&", "|", "^"]

/-- Tokens that no statement begins with. -/
def leadingContinuations : List String :=
  ["->", "&&", "||", "??", ".", "?", ":", ")", "]", ",", "=", "+", "-", "*", "/", "%", "<", ">",
    "&", "|", "^"]

/-- Words that no statement begins with. -/
def continuationKeywords : List String := ["else", "catch", "finally"]

/-- Operators that may end or begin a statement although their characters are continuations. -/
def stepOperators : List String := ["++", "--"]

/-- A text ends so that the statement goes on. -/
def endsInContinuation (tail : List Char) : Bool :=
  let tail := trimEnd tail
  !stepOperators.any (·.toList.isSuffixOf tail) &&
    trailingContinuations.any (·.toList.isSuffixOf tail)

/-- The text after its leading blanks and comments. -/
def afterTrivia (set : GuardSet) (c : Cursor) : List Char :=
  match c.front set with
  | .finish | .region .string _ => c.rest
  | .openRegion issue _ => if issue.region = .blockComment then [] else c.rest
  | .region _ after => afterTrivia set after.cursor
  | .code ch after => if isBlank ch then afterTrivia set after.cursor else c.rest
termination_by c.rest.length
decreasing_by all_goals exact Cursor.Later.length_lt _

/-- A word stands alone at the start of a text. -/
def beginsWithWord (word : String) (text : List Char) : Bool :=
  word.toList.isPrefixOf text && !(text.drop word.length).head?.any isWordPart

/-- A text begins so that the statement before goes on. Blanks and comments of
the guard set are passed over. -/
def beginsWithContinuation (set : GuardSet) (head : List Char) : Bool :=
  let text := afterTrivia set ⟨.start, head⟩
  !stepOperators.any (·.toList.isPrefixOf text) &&
    (leadingContinuations.any (·.toList.isPrefixOf text) ||
      continuationKeywords.any (beginsWithWord · text))

/-! ## Divided selectors -/

/-- The characters of a selector between its double braces. -/
def isSelectorChar (c : Char) : Bool :=
  c.isAlphanum || ['.', '#', '-', '_', '[', ']', '&', ' '].contains c

/-- The text after the last double opening brace, or `last` if there is none. -/
def afterLastOpening (last : Option (List Char)) : List Char → Option (List Char)
  | [] => last
  | c :: text =>
    afterLastOpening (if c = '{' && text.head? = some '{' then some text.tail else last) text

/-- The first text ends inside a selector that the second one closes. The
result is what the second text gives up: the rest of the selector and, behind
an arrow, the name of the method. -/
def dividedSelector (tail head : List Char) : Option (List Char) :=
  if (afterLastOpening none tail).any (·.all isSelectorChar) then
    let inner := head.takeWhile isSelectorChar
    match head.drop inner.length with
    | '}' :: '}' :: '-' :: '>' :: text =>
      some (inner ++ ['}', '}', '-', '>'] ++ text.takeWhile fun c => c.isAlphanum || c = '_')
    | '}' :: '}' :: _ => some (inner ++ ['}', '}'])
    | _ => none
  else none

/-! ## Decisions -/

/-- What to do with a boundary. -/
inductive Boundary where
  | keep
  | merge
  /-- Move this text, the beginning of the second fragment, over to the first. -/
  | shift (moved : List Char)
  deriving DecidableEq

/-- What to do with the boundary between two fragments that may be joined. A
fragment of white space goes to the one before it. Otherwise only `window`
bytes on either side are looked at. -/
def Boundary.between (window : Nat) (f g : Fragment) : Boundary :=
  if (trim g.content).isEmpty then .merge
  else
    let tail := lastBytes window f.content
    let head := takeBytes window g.content
    match dividedSelector tail head with
    | some moved => if moved.length < g.content.length then .shift moved else .merge
    | none =>
      if endsInContinuation tail || beginsWithContinuation g.context.guardSet head then .merge
      else .keep

namespace Fragment

/-- The two fragments as one, under the number and the frame of the first. -/
def merge (f g : Fragment) : Fragment :=
  { f with
    content := f.content ++ g.content
    stop := g.stop
    features := f.features.union g.features
    literals := f.literals ++ g.literals }

/-- The two fragments with the beginning of the second one moved to the first. -/
def shift (f g : Fragment) (moved : List Char) : Fragment × Fragment :=
  let boundary := g.start.advanceOver moved
  ({ f with content := f.content ++ moved, stop := boundary },
    { g with content := g.content.drop moved.length, start := boundary })

/-- Decide on the boundary between two fragments: the first one, and what is
left of the second. Fragments that do not lie side by side in one scope and
context, or that error recovery made, stay as they are. -/
def stitch (window : Nat) (f g : Fragment) : Fragment × Option Fragment :=
  if f.precedes g then
    match Boundary.between window f g with
    | .keep => (f, some g)
    | .merge => (f.merge g, none)
    | .shift moved =>
      let (f, g) := f.shift g moved
      (f, some g)
  else (f, some g)

/-- Add the next fragment to those already stitched, last one first. -/
def stitchNext (window : Nat) : List Fragment → Fragment → List Fragment
  | [], g => [g]
  | f :: done, g =>
    match f.stitch window g with
    | (f, some g) => g :: f :: done
    | (f, none) => f :: done

/-- Decide on every boundary, left to right. -/
def stitchAll (window : Nat) (fs : List Fragment) : List Fragment :=
  (fs.foldl (stitchNext window) []).reverse

end Fragment

end Polyglot
