-- SUMMARY: Dialect markers of scripts and sets of them.

/-!
# Features

A script that uses the extended dialect shows it by markers. `Features` is the
set of markers found in one piece of script text.
-/

namespace Polyglot

/-- The markers of the extended script dialect. -/
inductive Marker where
  /-- A selector in double braces. -/
  | enhancedSelector
  /-- The arrow operator. -/
  | arrow
  | listenCall
  | delegateCall
  | animateCall
  /-- A binding with the keyword `vir`. -/
  | virtualObject
  deriving DecidableEq

namespace Marker

/-- Every marker, in listing order. -/
def all : List Marker :=
  [.enhancedSelector, .arrow, .listenCall, .delegateCall, .animateCall, .virtualObject]

theorem mem_all (m : Marker) : m ∈ all := by cases m <;> decide

/-- The name of a marker in listings. -/
def name : Marker → String
  | .enhancedSelector => "ENHANCED_SELECTOR"
  | .arrow => "ARROW_OPERATOR"
  | .listenCall => "LISTEN_CALL"
  | .delegateCall => "DELEGATE_CALL"
  | .animateCall => "ANIMATE_CALL"
  | .virtualObject => "VIRTUAL_OBJECT"

/-- The value of a marker in the numeric form of a set. -/
def weight : Marker → Nat
  | .enhancedSelector => 1
  | .arrow => 2
  | .listenCall => 4
  | .delegateCall => 8
  | .animateCall => 16
  | .virtualObject => 32

end Marker

/-- A set of markers. -/
structure Features where
  enhancedSelector : Bool
  arrow : Bool
  listenCall : Bool
  delegateCall : Bool
  animateCall : Bool
  virtualObject : Bool
  deriving DecidableEq

namespace Features

/-- No marker. -/
def none : Features := ⟨false, false, false, false, false, false⟩

/-- Whether a marker is in the set. -/
def has (f : Features) : Marker → Bool
  | .enhancedSelector => f.enhancedSelector
  | .arrow => f.arrow
  | .listenCall => f.listenCall
  | .delegateCall => f.delegateCall
  | .animateCall => f.animateCall
  | .virtualObject => f.virtualObject

/-- The set with one more marker. -/
def insert (f : Features) : Marker → Features
  | .enhancedSelector => { f with enhancedSelector := true }
  | .arrow => { f with arrow := true }
  | .listenCall => { f with listenCall := true }
  | .delegateCall => { f with delegateCall := true }
  | .animateCall => { f with animateCall := true }
  | .virtualObject => { f with virtualObject := true }

/-- The markers of either set. -/
def union (f g : Features) : Features :=
  ⟨f.enhancedSelector || g.enhancedSelector, f.arrow || g.arrow, f.listenCall || g.listenCall,
    f.delegateCall || g.delegateCall, f.animateCall || g.animateCall,
    f.virtualObject || g.virtualObject⟩

/-- The set of the markers in a list. -/
def ofList (ms : List Marker) : Features := ms.foldl insert none

/-- The markers of a set, in listing order. -/
def toList (f : Features) : List Marker := Marker.all.filter f.has

/-- The numeric form of a set: the sum of the weights of its markers. -/
def weight (f : Features) : Nat := (f.toList.map Marker.weight).foldl (· + ·) 0

/-- At least one marker is present, so the text belongs to the extended dialect. -/
def isExtension (f : Features) : Bool := Marker.all.any f.has

@[simp] theorem has_none (m : Marker) : none.has m = false := by cases m <;> rfl

theorem has_insert (f : Features) (m n : Marker) :
    (f.insert m).has n = (n = m || f.has n) := by
  cases m <;> cases n <;> simp [insert, has]

@[simp] theorem has_union (f g : Features) (m : Marker) :
    (f.union g).has m = (f.has m || g.has m) := by
  cases m <;> rfl

/-- Two sets with the same members are equal. -/
theorem ext_has {f g : Features} (h : ∀ m, f.has m = g.has m) : f = g := by
  have h1 := h .enhancedSelector
  have h2 := h .arrow
  have h3 := h .listenCall
  have h4 := h .delegateCall
  have h5 := h .animateCall
  have h6 := h .virtualObject
  cases f
  cases g
  simp_all [has]

theorem isExtension_iff (f : Features) : f.isExtension ↔ ∃ m, f.has m := by
  simp only [isExtension, List.any_eq_true]
  exact ⟨fun ⟨m, _, h⟩ => ⟨m, h⟩, fun ⟨m, h⟩ => ⟨m, m.mem_all, h⟩⟩

end Features

end Polyglot
