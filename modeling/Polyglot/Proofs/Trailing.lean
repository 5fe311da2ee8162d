-- SUMMARY: A comment behind a statement decides whether the next line is joined to it.
import Polyglot.Proofs.Operation
import Polyglot.Proofs.Statement

/-!
# Trailing comments

A boundary goes when the text before it ends in an operator. The text is matched as it is:
only white space is trimmed, comments at its end stay. So what a statement with a comment
behind it ends in is what the comment ends in (`endsInContinuation_trailed`): in front of a
line feed a block comment always joins, and a line comment hides the operator before it
(`Fragment.joins_trailed_iff`).
-/

namespace Polyglot

/-! ## How a text ends -/

/-- Short endings of a text do not depend on what comes before it. -/
theorem any_isSuffixOf_append {ops : List String} {text : List Char}
    (h : ∀ op ∈ ops, op.toList.length ≤ text.length) (before : List Char) :
    ops.any (·.toList.isSuffixOf (before ++ text)) = ops.any (·.toList.isSuffixOf text) := by
  rw [Bool.eq_iff_iff, List.any_eq_true, List.any_eq_true]
  refine exists_congr fun op => and_congr_right fun hmem => ?_
  rw [List.isSuffixOf_iff_suffix, List.isSuffixOf_iff_suffix]
  exact ⟨fun hend => List.suffix_of_suffix_length_le hend (List.suffix_append ..) (h op hmem),
    fun hend => hend.trans (List.suffix_append ..)⟩

/-- Only the last two characters tell whether the statement goes on. -/
theorem endsInContinuation_append (before : List Char) {text : List Char}
    (h : 2 ≤ (trimEnd text).length) :
    endsInContinuation (before ++ text) = endsInContinuation text := by
  have hsolid : trimEnd text ≠ [] := List.ne_nil_of_length_pos (by omega)
  have hstep : ∀ op ∈ stepOperators, op.toList.length ≤ 2 := by decide
  have hops : ∀ op ∈ trailingContinuations, op.toList.length ≤ 2 := by decide
  simp only [endsInContinuation]
  rw [trimEnd_append before hsolid, any_isSuffixOf_append fun op hop => (hstep op hop).trans h,
    any_isSuffixOf_append fun op hop => (hops op hop).trans h]

/-! ## Comments -/

/-- A comment of a script begins with two characters that are not trimmed. -/
theorem IsRegion.two_le_length_trimEnd {kind : GuardKind} {comment : List Char}
    (h : IsRegion .script kind comment) (hkind : kind ≠ .string) :
    2 ≤ (trimEnd comment).length := by
  have hopen : ∀ {a b : Char} (w : List Char), isUnicodeSpace b = false →
      2 ≤ (trimEnd (a :: b :: w)).length := fun {a b} w hb => length_lt_trimEnd [a] hb w
  cases h with
  | string => exact absurd rfl hkind
  | lineComment | blockComment | generatorComment => exact hopen _ (by decide)

/-- The end of a block comment is a slash, which is taken for an operator. -/
theorem IsRegion.endsInContinuation_block {comment : List Char}
    (h : IsRegion .script .blockComment comment) : endsInContinuation comment = true := by
  cases h with
  | @blockComment w p p' code on closed =>
    obtain ⟨v, r, rfl, hr, -⟩ := Cursor.findFrom_eq_some closed
    obtain rfl : r = [] := by simpa using hr
    have hend : '/' :: '*' :: (v ++ (['*', '/'] ++ [])) = ('/' :: '*' :: v) ++ ['*', '/'] := by simp
    rw [hend, endsInContinuation_append _ (by decide)]
    decide

/-- A text with a comment behind it ends in what the comment ends in. -/
theorem endsInContinuation_trailed (text : List Char) {kind : GuardKind} {comment : List Char}
    (h : IsRegion .script kind comment) (hkind : kind ≠ .string) :
    endsInContinuation (text ++ ' ' :: comment) = endsInContinuation comment := by
  rw [List.append_cons, endsInContinuation_append _ (h.two_le_length_trimEnd hkind)]

namespace Fragment

/-- Stitching makes one fragment of two. -/
def Joins (window : Nat) (f g : Fragment) : Prop := (f.stitch window g).2 = none

instance (window : Nat) (f g : Fragment) : Decidable (f.Joins window g) :=
  inferInstanceAs (Decidable (_ = none))

/-- A fragment with a comment behind its text. -/
def trailed (f : Fragment) (comment : List Char) : Fragment :=
  { f with
    content := f.content ++ ' ' :: comment
    stop := f.stop.advanceOver (' ' :: comment) }

/-- The next fragment behind such a comment. -/
def behind (g : Fragment) (comment : List Char) : Fragment :=
  let start := g.start.advanceOver (' ' :: comment)
  { g with
    start := start
    stop := start.advanceOver g.content }

/-- A fragment is joined to the one before it, whatever that ends in. -/
def GoesOn (g : Fragment) : Prop :=
  trim g.content = [] ∨ beginsWithContinuation g.context.guardSet g.content

instance (g : Fragment) : Decidable g.GoesOn := inferInstanceAs (Decidable (_ ∨ _))

variable {window : Nat} {f g : Fragment}

theorem precedes_trailed (h : f.precedes g) (comment : List Char) :
    (f.trailed comment).precedes (g.behind comment) := by
  simp only [precedes, Bool.and_eq_true, decide_eq_true_eq] at h ⊢
  simp [trailed, behind, h]

theorem joins_iff_between (h : f.precedes g) :
    f.Joins window g ↔ Boundary.between window f g = .merge := by
  unfold Joins stitch
  rw [if_pos h]
  cases Boundary.between window f g <;> simp

theorem between_of_blank (h : trim g.content = []) (window : Nat) :
    Boundary.between window f g = .merge := by
  simp [Boundary.between, h]

theorem between_of_divided (hblank : trim g.content ≠ []) {moved : List Char}
    (h : dividedSelector (lastBytes window f.content) (takeBytes window g.content) = some moved) :
    Boundary.between window f g =
      if moved.length < g.content.length then .shift moved else .merge := by
  simp [Boundary.between, hblank, h]

/-- Where no selector is divided, a boundary goes for what stands on either side of it. -/
theorem between_of_whole (hblank : trim g.content ≠ []) (h : Divided window f g) :
    Boundary.between window f g =
      if endsInContinuation (lastBytes window f.content) ∨
        beginsWithContinuation g.context.guardSet (takeBytes window g.content) then .merge
      else .keep := by
  have hnone : dividedSelector (lastBytes window f.content) (takeBytes window g.content) = none := h
  simp [Boundary.between, hblank, hnone]

/-- In a window that holds both texts, a line feed is joined to the text before it for what
the one ends in or the other begins with. -/
theorem joins_iff_of_line (hnext : f.precedes g) (hline : g.content.head? = some '\n')
    (hf : byteLength f.content ≤ window) (hg : byteLength g.content ≤ window) :
    f.Joins window g ↔ g.GoesOn ∨ endsInContinuation f.content := by
  have hwhole : Divided window f g := by
    rw [Divided, lastBytes_of_le hf, takeBytes_of_le hg]
    exact dividedSelector_of_newline (by simp [hline]) _
  rw [joins_iff_between hnext, GoesOn]
  by_cases hblank : trim g.content = []
  · simp [between_of_blank hblank, hblank]
  · rw [between_of_whole hblank hwhole, lastBytes_of_le hf, takeBytes_of_le hg]
    simp only [ite_eq_left_iff, reduceCtorEq, imp_false, not_not, hblank, false_or]
    exact or_comm

/-- A comment between a statement and the next line: the comment alone decides whether they
are joined, unless the line goes on by itself. So the decision is that for the statement only
if the comment ends as the statement does, and behind a block comment everything is joined. -/
theorem joins_trailed_iff {kind : GuardKind} {comment : List Char} (hnext : f.precedes g)
    (hline : g.content.head? = some '\n') (hcomment : IsRegion .script kind comment)
    (hkind : kind ≠ .string)
    (hwindow : byteLength (f.content ++ ' ' :: comment ++ g.content) ≤ window) :
    ((f.trailed comment).Joins window (g.behind comment) ↔
      g.GoesOn ∨ endsInContinuation comment) ∧
    (((f.trailed comment).Joins window (g.behind comment) ↔ f.Joins window g) ↔
      g.GoesOn ∨ (endsInContinuation comment ↔ endsInContinuation f.content)) ∧
    (kind = .blockComment → (f.trailed comment).Joins window (g.behind comment)) := by
  rw [byteLength_append, byteLength_append] at hwindow
  have htrailed : (f.trailed comment).Joins window (g.behind comment) ↔
      g.GoesOn ∨ endsInContinuation comment := by
    have hfits : byteLength (f.trailed comment).content ≤ window := by
      rw [trailed, byteLength_append]
      omega
    have hboth := joins_iff_of_line (precedes_trailed hnext comment) hline hfits
      (show byteLength g.content ≤ window by omega)
    rwa [trailed, endsInContinuation_trailed _ hcomment hkind] at hboth
  have hbare : f.Joins window g ↔ g.GoesOn ∨ endsInContinuation f.content :=
    joins_iff_of_line hnext hline (by omega) (by omega)
  refine ⟨htrailed, ?_, ?_⟩
  · rw [htrailed, hbare]
    by_cases hgoes : g.GoesOn <;> simp [hgoes]
  · rintro rfl
    exact htrailed.2 (.inr hcomment.endsInContinuation_block)

/-- A line comment hides the operator in front of it, and a block comment makes up one. -/
theorem joins_trailed_iff_hidden :
    let frame : Frame := ⟨.scriptLocal, 1, [.global], 1⟩
    let p : Position := ⟨7, 1, 8⟩
    let f := frame.fragment false 0 "a = b +".toList .start p
    let g := frame.fragment false 1 "\nc;".toList p ⟨10, 2, 3⟩
    f.precedes g ∧ g.content.head? = some '\n' ∧ f.Joins 64 g ∧
      ¬ (f.trailed "// sum".toList).Joins 64 (g.behind "// sum".toList) ∧
      (f.trailed "/**/".toList).Joins 64 (g.behind "/**/".toList) := by
  intro frame p f g
  have hnext : f.precedes g := by decide
  have hline : g.content.head? = some '\n' := rfl
  have hgoes : ¬ g.GoesOn := by decide +kernel
  have hsum : IsRegion .script .lineComment "// sum".toList :=
    .lineComment (by decide) rfl (by decide)
  have hempty : IsRegion .script .blockComment "/**/".toList :=
    .blockComment (p := .start) (by decide) rfl rfl
  have hfits : byteLength (f.content ++ ' ' :: "// sum".toList ++ g.content) ≤ 64 := by decide
  have hfits' : byteLength (f.content ++ ' ' :: "/**/".toList ++ g.content) ≤ 64 := by decide
  obtain ⟨hjoins, hsame, -⟩ := joins_trailed_iff hnext hline hsum (by decide) hfits
  obtain ⟨-, -, hblock⟩ := joins_trailed_iff hnext hline hempty (by decide) hfits'
  have hhidden : ¬ (f.trailed "// sum".toList).Joins 64 (g.behind "// sum".toList) :=
    fun h => (hjoins.1 h).elim hgoes (by decide)
  refine ⟨hnext, hline, ?_, hhidden, hblock rfl⟩
  by_contra hkeep
  rcases hsame.1 (iff_of_false hhidden hkeep) with h | h
  · exact hgoes h
  · exact absurd h (by decide)

end Fragment

end Polyglot
