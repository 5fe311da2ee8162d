-- SUMMARY: The signs of a document's structure, and which braces among them match.
import Polyglot.Proofs.Brace
import Mathlib.Data.List.Induction

/-!
# Signs

What the structural pass goes by are braces, declaration headers and what ends a
header. A `Sign` is one of these, or a whole embedded block. Which braces match is
said by the braces alone: two of them do if all braces between them match among
themselves. `unclosed`, `unopened` and `bodiless` are what may be wrong with the
braces of a document, in the order of the text.
-/

namespace Polyglot

/-- What the structure of a document shows, one after the other. -/
inductive Sign where
  /-- A brace that opens an element or the body of a declaration. -/
  | opening (brace : Position)
  /-- A closing brace. -/
  | closing (brace : Position)
  /-- A declaration header, which waits for its body from here on. -/
  | header
  /-- A semicolon, or a line end in front of code other than an opening brace. -/
  | ending
  /-- An embedded block, which begins with its brace. -/
  | block (context : Context) (brace : Cursor)
  deriving DecidableEq

namespace Sign

/-- The brace that a sign is. Those of an embedded block are not among them. -/
def brace? : Sign → Option Char
  | .opening _ => some '{'
  | .closing _ => some '}'
  | .header | .ending | .block _ _ => none

/-- The braces among some signs. -/
def braces (signs : List Sign) : List Char := signs.filterMap brace?

@[simp] theorem braces_append (u v : List Sign) : braces (u ++ v) = braces u ++ braces v :=
  List.filterMap_append

/-! ## Places -/

/-- Where the brace of a sign stands. -/
def position? : Sign → Option Position
  | .opening pos | .closing pos => some pos
  | .block _ brace => some brace.position
  | .header | .ending => none

/-- The brace of a sign stands at a cursor. -/
inductive StandsAt : Sign → Cursor → Prop where
  | opening {c : Cursor} (brace : c.rest.head? = some '{') : StandsAt (.opening c.position) c
  | closing {c : Cursor} (brace : c.rest.head? = some '}') : StandsAt (.closing c.position) c
  | block {c : Cursor} {context : Context} (brace : c.rest.head? = some '{') :
    StandsAt (.block context c) c

theorem StandsAt.position {s : Sign} {c : Cursor} (h : s.StandsAt c) :
    s.position? = some c.position := by
  cases h <;> rfl

/-- The braces of some signs stand in a document, in its order. -/
structure Stand (doc : Cursor) (signs : List Sign) : Prop where
  found : ∀ s ∈ signs, s.position? = none ∨ ∃ c, doc.Reaches c ∧ s.StandsAt c
  ordered : (signs.filterMap position?).Pairwise fun a b => a.offset < b.offset

/-- A sign without a brace stands anywhere. -/
theorem Stand.concat_none {doc : Cursor} {signs : List Sign} {s : Sign} (h : Stand doc signs)
    (hs : s.position? = none) : Stand doc (signs ++ [s]) where
  found := by
    intro x hx
    rcases List.mem_append.1 hx with hx | hx
    · exact h.found x hx
    · rw [List.mem_singleton.1 hx]
      exact .inl hs
  ordered := by
    rw [List.filterMap_append, List.filterMap_cons_none hs, List.filterMap_nil, List.append_nil]
    exact h.ordered

theorem Stand.concat {doc c : Cursor} {signs : List Sign} {s : Sign} (h : Stand doc signs)
    (hbehind : ∀ pos ∈ signs.filterMap position?, pos.offset < c.offset)
    (hc : doc.Reaches c) (hs : s.StandsAt c) : Stand doc (signs ++ [s]) where
  found := by
    intro x hx
    rcases List.mem_append.1 hx with hx | hx
    · exact h.found x hx
    · rw [List.mem_singleton.1 hx]
      exact .inr ⟨c, hc, hs⟩
  ordered := by
    rw [List.filterMap_append, List.filterMap_cons_some hs.position, List.filterMap_nil,
      List.pairwise_append]
    refine ⟨h.ordered, List.pairwise_singleton _ _, fun a ha b hb => ?_⟩
    rw [List.mem_singleton.1 hb]
    exact hbehind a ha

/-! ## Matching braces -/

/-- A closing brace behind these signs matches an opening one among them. -/
def Closes (before : List Sign) : Prop :=
  ∃ outer pos inner, before = outer ++ .opening pos :: inner ∧ BracesMatch (braces inner)

/-- An opening brace in front of these signs matches a closing one among them. -/
def IsClosed (behind : List Sign) : Prop :=
  ∃ inner pos outer, behind = inner ++ .closing pos :: outer ∧ BracesMatch (braces inner)

/-- How many closing braces match no opening one. -/
def surplus : List Sign → Nat
  | [] => 0
  | .opening _ :: signs => surplus signs - 1
  | .closing _ :: signs => surplus signs + 1
  | .header :: signs | .ending :: signs | .block _ _ :: signs => surplus signs

theorem forall_prefix_cons {α : Type} {Q : List α → Prop} {a : α} {l : List α} :
    (∀ p, p <+: a :: l → Q p) ↔ Q [] ∧ ∀ p, p <+: l → Q (a :: p) := by
  constructor
  · intro h
    exact ⟨h [] List.nil_prefix, fun p hp => h _ (List.cons_prefix_cons.2 ⟨rfl, hp⟩)⟩
  · rintro ⟨hnil, hcons⟩ p hp
    rcases List.prefix_cons_iff.1 hp with rfl | ⟨q, rfl, hq⟩
    · exact hnil
    · exact hcons q hq

/-- Behind `n` opening braces, no brace is closed before it was opened. -/
theorem surplus_le_iff {signs : List Sign} {n : Nat} :
    surplus signs ≤ n ↔ ∀ p, p <+: braces signs → 0 ≤ (n : Int) + braceDepth p := by
  induction signs generalizing n with
  | nil => simp [surplus, braces]
  | cons s signs ih =>
    cases s with
    | opening pos =>
      have hbraces : braces (.opening pos :: signs) = '{' :: braces signs := rfl
      rw [surplus, hbraces, forall_prefix_cons, Nat.sub_le_iff_le_add, ih]
      simp [Int.add_assoc]
    | closing pos =>
      have hbraces : braces (.closing pos :: signs) = '}' :: braces signs := rfl
      rw [surplus, hbraces, forall_prefix_cons]
      cases n with
      | zero =>
        refine iff_of_false (by omega) fun h => ?_
        have := h.2 [] List.nil_prefix
        simp at this
      | succ n =>
        have hclose : ∀ p, ((n + 1 : Nat) : Int) + braceDepth ('}' :: p) = n + braceDepth p := by
          intro p
          rw [braceDepth_cons, braceChange_close]
          omega
        rw [Nat.add_le_add_iff_right, ih]
        simp only [hclose, braceDepth_nil, Int.add_zero, Int.natCast_nonneg, true_and]
    | _ => exact ih

theorem surplus_eq_zero_iff {signs : List Sign} :
    surplus signs = 0 ↔ ∀ p, p <+: braces signs → 0 ≤ braceDepth p := by
  rw [← Nat.le_zero, surplus_le_iff]
  simp

/-- A brace is closed exactly if the signs behind it close more than they open, at some
point. -/
theorem isClosed_iff {signs : List Sign} : IsClosed signs ↔ 0 < surplus signs := by
  rw [Nat.pos_iff_ne_zero, ne_eq, surplus_eq_zero_iff]
  constructor
  · rintro ⟨inner, pos, outer, rfl, hmatch⟩ hsane
    have hprefix : braces inner ++ ['}'] <+: braces (inner ++ .closing pos :: outer) := by
      rw [braces_append]
      exact List.prefix_append_right_inj _ |>.2 ⟨braces outer, rfl⟩
    have := hsane _ hprefix
    rw [braceDepth_append, hmatch.settled] at this
    exact absurd this (by decide)
  · -- the last sign is the closing brace, unless one before it is
    intro h
    induction signs using List.reverseRecOn with
    | nil => exact absurd (by simp [braces]) h
    | append_singleton signs s ih =>
      by_cases hsane : ∀ p, p <+: braces signs → 0 ≤ braceDepth p
      · have hwhole := hsane _ (List.prefix_refl _)
        have hlast : ∀ ch, braces [s] = [ch] → ¬ 0 ≤ braceDepth (braces signs ++ [ch]) := by
          intro ch hch hnet
          refine h fun p hp => ?_
          rw [braces_append, hch, List.prefix_concat_iff] at hp
          rcases hp with rfl | hp
          · exact hnet
          · exact hsane p hp
        have hsame : braces [s] = [] → False := by
          intro hnil
          rw [braces_append, hnil, List.append_nil] at h
          exact h hsane
        cases s with
        | opening pos =>
          have hone : braceDepth ['{'] = 1 := rfl
          refine absurd ?_ (hlast '{' rfl)
          rw [braceDepth_append, hone]
          omega
        | closing pos =>
          refine ⟨signs, pos, [], rfl, hsane, ?_⟩
          have hone : braceDepth ['}'] = -1 := rfl
          have hnet := hlast '}' rfl
          rw [braceDepth_append, hone] at hnet
          omega
        | _ => exact (hsame rfl).elim
      · obtain ⟨inner, pos, outer, rfl, hmatch⟩ := ih hsane
        exact ⟨inner, pos, outer ++ [s], by simp, hmatch⟩

instance (signs : List Sign) : Decidable (IsClosed signs) := decidable_of_iff _ isClosed_iff.symm

/-! ## What matches nothing -/

/-- The opening braces that match no closing one, in order. -/
def unclosed : List Sign → List Position
  | [] => []
  | .opening pos :: signs => if IsClosed signs then unclosed signs else pos :: unclosed signs
  | .closing _ :: signs | .header :: signs | .ending :: signs | .block _ _ :: signs =>
    unclosed signs

theorem unclosed_opening_of_closed {signs : List Sign} (h : 0 < surplus signs) (pos : Position) :
    unclosed (.opening pos :: signs) = unclosed signs := if_pos (isClosed_iff.2 h)

theorem unclosed_opening_of_zero {signs : List Sign} (h : surplus signs = 0) (pos : Position) :
    unclosed (.opening pos :: signs) = pos :: unclosed signs :=
  if_neg fun hclosed => by
    have := isClosed_iff.1 hclosed
    omega

/-- What the braces leave open, less what they close too much. -/
theorem braceDepth_braces (signs : List Sign) :
    braceDepth (braces signs) = (unclosed signs).length - surplus signs := by
  induction signs with
  | nil => rfl
  | cons s signs ih =>
    cases s with
    | opening pos =>
      have hbraces : braces (.opening pos :: signs) = '{' :: braces signs := rfl
      rw [hbraces, braceDepth_cons, ih, braceChange_open, surplus]
      by_cases h : 0 < surplus signs
      · rw [unclosed_opening_of_closed h]
        omega
      · rw [unclosed_opening_of_zero (by omega), List.length_cons]
        omega
    | closing pos =>
      have hbraces : braces (.closing pos :: signs) = '}' :: braces signs := rfl
      rw [hbraces, braceDepth_cons, ih, braceChange_close, surplus, unclosed]
      omega
    | _ => exact ih

theorem bracesMatch_iff {signs : List Sign} :
    BracesMatch (braces signs) ↔ surplus signs = 0 ∧ unclosed signs = [] := by
  have hdepth := braceDepth_braces signs
  rw [← List.length_eq_zero_iff]
  constructor
  · rintro ⟨hsane, hsettled⟩
    have := surplus_eq_zero_iff.2 hsane
    omega
  · rintro ⟨hsurplus, hunclosed⟩
    exact ⟨surplus_eq_zero_iff.1 hsurplus, by omega⟩

/-- The openings of a text close what the text behind it closes too much. -/
theorem surplus_append (u v : List Sign) :
    surplus (u ++ v) = surplus u + (surplus v - (unclosed u).length) := by
  induction u with
  | nil => simp [surplus, unclosed]
  | cons s u ih =>
    cases s with
    | opening pos =>
      rw [List.cons_append, surplus, surplus, ih]
      by_cases h : 0 < surplus u
      · rw [unclosed_opening_of_closed h]
        omega
      · rw [unclosed_opening_of_zero (by omega), List.length_cons]
        omega
    | closing pos =>
      rw [List.cons_append, surplus, surplus, ih, unclosed]
      omega
    | _ => exact ih

/-- What a text closes too much closes the last openings of the text before it. -/
theorem unclosed_append (u v : List Sign) :
    unclosed (u ++ v) = (unclosed u).take ((unclosed u).length - surplus v) ++ unclosed v := by
  induction u with
  | nil => simp [unclosed]
  | cons s u ih =>
    cases s with
    | opening pos =>
      rw [List.cons_append]
      by_cases h : 0 < surplus u
      · have h' : 0 < surplus (u ++ v) := by
          rw [surplus_append]
          omega
        rw [unclosed_opening_of_closed h, unclosed_opening_of_closed h', ih]
      · have hzero : surplus u = 0 := by omega
        rw [unclosed_opening_of_zero hzero, List.length_cons]
        by_cases hv : (unclosed u).length < surplus v
        · have h' : 0 < surplus (u ++ v) := by
            rw [surplus_append]
            omega
          have hnone : (unclosed u).length - surplus v = 0 := by omega
          have hnone' : (unclosed u).length + 1 - surplus v = 0 := by omega
          rw [unclosed_opening_of_closed h', ih, hnone, hnone', List.take_zero, List.take_zero]
        · have h' : surplus (u ++ v) = 0 := by
            rw [surplus_append]
            omega
          have hmore : (unclosed u).length + 1 - surplus v =
              (unclosed u).length - surplus v + 1 := by omega
          rw [unclosed_opening_of_zero h', ih, hmore, List.take_succ_cons, List.cons_append]
    | closing pos => exact ih
    | _ => exact ih

/-- There is an opening brace to match exactly if one is unclosed. -/
theorem closes_iff {before : List Sign} : Closes before ↔ unclosed before ≠ [] := by
  constructor
  · rintro ⟨outer, pos, inner, rfl, hmatch⟩
    rw [unclosed_append, unclosed_opening_of_zero (bracesMatch_iff.1 hmatch).1]
    simp
  · intro h
    induction before with
    | nil => exact absurd rfl h
    | cons s before ih =>
      by_cases hmore : unclosed before = []
      · cases s with
        | opening pos =>
          have hzero : surplus before = 0 := by
            by_contra hpos
            exact h ((unclosed_opening_of_closed (Nat.pos_of_ne_zero hpos) pos).trans hmore)
          exact ⟨[], pos, before, rfl, bracesMatch_iff.2 ⟨hzero, hmore⟩⟩
        | _ => exact absurd hmore h
      · obtain ⟨outer, pos, inner, rfl, hmatch⟩ := ih hmore
        exact ⟨s :: outer, pos, inner, rfl, hmatch⟩

instance (before : List Sign) : Decidable (Closes before) := decidable_of_iff _ closes_iff.symm

/-! ## Closing braces -/

/-- A declaration header waits for its body behind these signs. Whatever comes next ends it. -/
def isPending (before : List Sign) : Bool := before.getLast? = some .header

/-- The closing braces, in order, each with the signs in front of it. -/
def closings (before : List Sign) : List Sign → List (List Sign × Position)
  | [] => []
  | .closing pos :: signs => (before, pos) :: closings (before ++ [.closing pos]) signs
  | s :: signs => closings (before ++ [s]) signs

/-- The closing braces that match no opening one, in order. -/
def unopened (signs : List Sign) : List Position :=
  ((closings [] signs).filter fun (before, _) => !Closes before).map Prod.snd

/-- The closing braces that match an opening one while a header waits for its body, in order. -/
def bodiless (signs : List Sign) : List Position :=
  ((closings [] signs).filter fun (before, _) => Closes before && isPending before).map Prod.snd

theorem closings_append (before u v : List Sign) :
    closings before (u ++ v) = closings before u ++ closings (before ++ u) v := by
  induction u generalizing before with
  | nil => simp [closings]
  | cons s u ih =>
    cases s <;> simp [closings, ih]

/-! ## One more sign -/

section Concat

variable {signs : List Sign}

@[simp] theorem isPending_concat (signs : List Sign) (s : Sign) :
    isPending (signs ++ [s]) = decide (s = .header) := by
  simp [isPending]

theorem unclosed_concat_opening (signs : List Sign) (pos : Position) :
    unclosed (signs ++ [.opening pos]) = unclosed signs ++ [pos] := by
  have hunclosed : unclosed [.opening pos] = [pos] := unclosed_opening_of_zero rfl pos
  have hsurplus : surplus [.opening pos] = 0 := rfl
  rw [unclosed_append, hunclosed, hsurplus, Nat.sub_zero, List.take_length]

/-- A closing brace closes the last brace that is open. -/
theorem unclosed_concat_closing (signs : List Sign) (pos : Position) :
    unclosed (signs ++ [.closing pos]) = (unclosed signs).dropLast := by
  have hsurplus : surplus [.closing pos] = 1 := rfl
  have hunclosed : unclosed [.closing pos] = [] := rfl
  rw [unclosed_append, hunclosed, hsurplus, List.append_nil, List.dropLast_eq_take]

theorem unclosed_concat_other {s : Sign} (hs : s.brace? = none) :
    unclosed (signs ++ [s]) = unclosed signs := by
  have hsurplus : surplus [s] = 0 := by
    cases s <;> first | rfl | cases hs
  have hunclosed : unclosed [s] = [] := by
    cases s <;> first | rfl | cases hs
  rw [unclosed_append, hunclosed, hsurplus, Nat.sub_zero, List.take_length, List.append_nil]

theorem closings_concat_closing (signs : List Sign) (pos : Position) :
    closings [] (signs ++ [.closing pos]) = closings [] signs ++ [(signs, pos)] := by
  rw [closings_append]
  rfl

theorem closings_concat_other {s : Sign} (hs : ∀ pos, s ≠ .closing pos) :
    closings [] (signs ++ [s]) = closings [] signs := by
  have hnone : closings ([] ++ signs) [s] = [] := by
    cases s with
    | closing pos => exact absurd rfl (hs pos)
    | _ => rfl
  rw [closings_append, hnone, List.append_nil]

theorem unopened_concat_closing (signs : List Sign) (pos : Position) :
    unopened (signs ++ [.closing pos]) = unopened signs ++ if Closes signs then [] else [pos] := by
  unfold unopened
  rw [closings_concat_closing, List.filter_append, List.map_append]
  by_cases h : Closes signs <;> simp [h]

theorem bodiless_concat_closing (signs : List Sign) (pos : Position) :
    bodiless (signs ++ [.closing pos]) =
      bodiless signs ++ if Closes signs && isPending signs then [pos] else [] := by
  unfold bodiless
  rw [closings_concat_closing, List.filter_append, List.map_append]
  by_cases h : Closes signs && isPending signs <;> simp [h]

theorem unopened_concat_other {s : Sign} (hs : ∀ pos, s ≠ .closing pos) :
    unopened (signs ++ [s]) = unopened signs := by
  unfold unopened
  rw [closings_concat_other hs]

theorem bodiless_concat_other {s : Sign} (hs : ∀ pos, s ≠ .closing pos) :
    bodiless (signs ++ [s]) = bodiless signs := by
  unfold bodiless
  rw [closings_concat_other hs]

end Concat

/-! ## Blocks -/

/-- An embedded block that is never closed. -/
def isOpenBlock : Sign → Bool
  | .block context brace => !(brace.matchingClose context.guardSet).isOk
  | .opening _ | .closing _ | .header | .ending => false

end Sign

end Polyglot
