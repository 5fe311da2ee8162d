-- SUMMARY: The stack of open contexts: braces and declaration headers.
import Polyglot.Context

/-!
# The context stack

An entry is opened by a brace or by a declaration header that still waits for
its brace. Entries are held innermost first, each with a scope number that is
never given out twice. There is room for scopes of 32 bits, and to open one more
context is an error (`Stack.enter?`). The structural pass opens at most one
context for each byte that it reads, so it needs no check (`Stack.enter`).
-/

namespace Polyglot

/-- The number of an entry. Zero is the document itself. -/
abbrev Scope := Nat

/-- The scope of the document itself. -/
def Scope.root : Scope := 0

/-- How an entry is closed. -/
inductive EntryKind where
  /-- By its brace. -/
  | brace
  /-- A declaration header: by a semicolon or a line end, unless a brace opens its body. -/
  | header
  deriving DecidableEq

/-- An open context. -/
structure Entry where
  context : Context
  kind : EntryKind
  scope : Scope
  /-- Where it was opened; the brace, if it has one. -/
  openedAt : Position
  deriving DecidableEq

/-- A close that did not fit the stack. -/
inductive StackError where
  /-- Nothing was open. -/
  | empty
  /-- The innermost entry is not the one being closed. -/
  | mismatch (expected found : Context) (openedAt : Position)
  deriving DecidableEq

/-- The open contexts, innermost first, and the last scope given out. -/
structure Stack where
  entries : List Entry
  lastScope : Scope
  deriving DecidableEq

namespace Stack

/-- Nothing is open. -/
def empty : Stack := ⟨[], Scope.root⟩

/-! ## Views -/

/-- The innermost entry. -/
def top (s : Stack) : Option Entry := s.entries.head?

/-- The innermost context. -/
def current (s : Stack) : Context := (s.top.map Entry.context).getD .global

/-- The scope of the innermost entry. -/
def currentScope (s : Stack) : Scope := (s.top.map Entry.scope).getD Scope.root

/-- The number of open entries. -/
def depth (s : Stack) : Nat := s.entries.length

/-- The contexts around the innermost one, outermost first. -/
def enclosing (s : Stack) : List Context := (s.entries.tail.map Entry.context).reverse

/-- The outermost brace that is open. -/
def outermostBrace (s : Stack) : Option Entry := s.entries.reverse.find? (·.kind = .brace)

/-! ## Opening -/

/-- Open a context under a fresh scope. -/
def enter (s : Stack) (context : Context) (kind : EntryKind) (pos : Position) : Stack :=
  ⟨⟨context, kind, s.lastScope + 1, pos⟩ :: s.entries, s.lastScope + 1⟩

/-- Open a context under a fresh scope, if that fits into 32 bits. -/
def enter? (s : Stack) (context : Context) (kind : EntryKind) (pos : Position) : Option Stack :=
  if s.lastScope + 1 < UInt32.size then some (s.enter context kind pos) else none

/-- Turn the innermost entry into a brace, if it is a header. -/
def openHeaderBody (s : Stack) (pos : Position) : Option Stack :=
  match s.entries with
  | e :: below =>
    if e.kind = .header then
      some { s with entries := { e with kind := .brace, openedAt := pos } :: below }
    else none
  | [] => none

/-! ## Closing -/

/-- The innermost entry that satisfies `p`, with the entries below it. -/
def seek (p : Entry → Bool) : List Entry → Option (Entry × List Entry)
  | [] => none
  | e :: below => if p e then some (e, below) else seek p below

/-- Close the innermost entry, which should have context `expected`. If it has
not, the entries down to the innermost such entry are dropped, if there is one. -/
def exit (s : Stack) (expected : Context) : Except StackError Entry × Stack :=
  match s.entries with
  | [] => (.error .empty, s)
  | e :: below =>
    if e.context = expected then (.ok e, { s with entries := below })
    else
      let kept := ((seek (·.context = expected) below).map Prod.snd).getD s.entries
      (.error (.mismatch expected e.context e.openedAt), { s with entries := kept })

/-- Close the innermost brace. Headers above it are dropped, which is an error. -/
def closeBrace (s : Stack) : Except StackError Entry × Stack :=
  match s.entries with
  | [] => (.error .empty, s)
  | e :: below =>
    if e.kind = .brace then (.ok e, { s with entries := below })
    else match seek (·.kind = .brace) below with
      | some (b, kept) =>
        (.error (.mismatch b.context e.context e.openedAt), { s with entries := kept })
      | none => (.error .empty, { s with entries := [] })

/-- Close the innermost entry, if it is a header. -/
def endHeader (s : Stack) : Option Entry × Stack :=
  match s.entries with
  | e :: below => if e.kind = .header then (some e, { s with entries := below }) else (none, s)
  | [] => (none, s)

/-! ## Room for scopes -/

variable {s t : Stack} {context : Context} {kind : EntryKind} {pos : Position}

theorem enter?_eq_some_iff : s.enter? context kind pos = some t ↔
    t = s.enter context kind pos ∧ s.lastScope + 1 < UInt32.size := by
  unfold enter?
  split
  · next hroom => simp [hroom, eq_comm]
  · next hfull => simp [hfull]

theorem enter?_eq_none_iff :
    s.enter? context kind pos = none ↔ UInt32.size ≤ s.lastScope + 1 := by
  unfold enter?
  split
  · next hroom => simp [hroom]
  · next hfull => simpa using hfull

end Stack

end Polyglot
