-- SUMMARY: The heads of blocks: block keywords, declarations in brackets, origin types.
import Polyglot.Context

/-!
# Heads of blocks

What stands in front of a brace decides what the brace opens. A block keyword
hands its body to another sub-language, a declaration in brackets opens a
context of its own, and an origin declaration may name the type of its body.
-/

namespace Polyglot

/-- The keywords whose body belongs to another sub-language. -/
inductive BlockKeyword where
  | style
  | script
  | text
  deriving DecidableEq

namespace BlockKeyword

/-- The keyword that a word spells. -/
def ofWord? : String → Option BlockKeyword
  | "style" => some .style
  | "script" => some .script
  | "text" => some .text
  | _ => none

/-- A block directly inside an element is local, and so is one at the root if
the root counts as an element. -/
def isLocal (rootAsElement : Bool) (around : Context) : Bool :=
  around = .elementBody || (around = .global && rootAsElement)

/-- The context that a keyword's brace opens. -/
def context (rootAsElement : Bool) (around : Context) : BlockKeyword → Context
  | .text => .textBlock
  | .style => if isLocal rootAsElement around then .styleLocal else .styleGlobal
  | .script => if isLocal rootAsElement around then .scriptLocal else .scriptGlobal

end BlockKeyword

namespace Cursor

/-- The context of the declaration whose opening bracket was just read, and the
cursor after its closing bracket. -/
def declaration? {c : Cursor} (inside : c.Later) : Option (Context × c.Later) :=
  let past := inside.eatWhile Char.isAlpha
  if past.cursor.rest.head? = some ']' then
    (Context.ofDeclaration? (String.ofList (inside.cursor.textTo past.cursor))).map
      fun context => (context, past.advance)
  else none

/-- The type of an origin block and the cursor on its brace, from the end of
its declaration. Between the two stand an at sign with the type and possibly a
name. Without a brace it is a use and not a block. -/
def originBody? {c : Cursor} (header : c.Later) : Option (Context × c.Later) :=
  let gap := header.eatWhile isBlank
  match h : gap.cursor.eat ['@'] with
  | none => none
  | some d =>
    let sign := gap.move d ⟨_, consumes_eat rfl h⟩
    let past := sign.eatWhile isWordPart
    let type := String.ofList (sign.cursor.textTo past.cursor)
    let gap := past.eatWhile isBlank
    let brace :=
      if gap.cursor.rest.head?.any isWordStart then
        (gap.eatWhile isWordPart).eatWhile isBlank
      else gap
    if brace.cursor.rest.head? = some '{' then some (Context.ofOriginType type, brace) else none

end Cursor

end Polyglot
