-- SUMMARY: Readers move on by the text ahead of them, wherever in a document it stands.
import Polyglot.Proofs.Dialect
import Polyglot.Proofs.Place

/-!
# Reading on behind a byte order mark

With a byte order mark in front of it, the same text stands three bytes further on, and
its first line one column further on. `Cursor.Beside` relates a cursor on a document to
the cursor on the marked document that has the same text ahead. No reader looks behind
itself or at its position, so two readers that set out beside each other stay beside
each other, and what they note differs by the shift of positions only.
-/

namespace Polyglot

/-! ## Positions -/

namespace Position

/-- The place of a position once a byte order mark stands in front of the document. -/
def behindMark (p : Position) : Position :=
  ⟨p.offset + 3, p.line, if p.line = 1 then p.column + 1 else p.column⟩

/-- `q` is the place of `p` behind a byte order mark. Lines are counted from one on. -/
structure Beside (p q : Position) : Prop where
  line : 0 < p.line
  place : q = p.behindMark

variable {p q p' q' : Position}

theorem beside_start : start.Beside (start.advance EncodingIssue.byteOrderMark) :=
  ⟨Nat.one_pos, by decide⟩

theorem Beside.offset (h : p.Beside q) : q.offset = p.offset + 3 := by
  rw [h.place]
  rfl

/-- A line feed leaves the first line behind, and no other character does. -/
theorem Beside.advance (h : p.Beside q) (ch : Char) : (p.advance ch).Beside (q.advance ch) := by
  obtain ⟨hline, rfl⟩ := h
  by_cases hch : ch = '\n'
  · have hlater : p.line + 1 ≠ 1 := by omega
    refine ⟨by simp [Position.advance, hch], ?_⟩
    simp only [Position.advance, behindMark, hch, if_true, if_neg hlater,
      Nat.add_right_comm p.offset 3]
  · refine ⟨by simpa [Position.advance, hch] using hline, ?_⟩
    simp only [Position.advance, behindMark, hch, if_false, Nat.add_right_comm p.offset 3]
    split <;> rfl

theorem Beside.advanceOver (h : p.Beside q) (text : List Char) :
    (p.advanceOver text).Beside (q.advanceOver text) := by
  induction text generalizing p q with
  | nil => exact h
  | cons ch text ih => exact ih (h.advance ch)

end Position

/-- A literal of a document, with a byte order mark in front of the document. -/
def Literal.behindMark (l : Literal) : Literal := { l with offset := l.offset + 3 }

/-- The same open region, behind a byte order mark. -/
structure GuardIssue.Beside (i j : GuardIssue) : Prop where
  region : j.region = i.region
  start : i.start.Beside j.start

namespace Cursor

/-! ## Cursors -/

/-- The two cursors have the same text ahead, the second one behind a byte order mark. -/
structure Beside (c d : Cursor) : Prop where
  rest : c.rest = d.rest
  position : c.position.Beside d.position

variable {c d c' d' : Cursor} {set : GuardSet}

/-- Two readers that have read the same stay beside each other. -/
theorem Beside.onward (h : c.Beside d) (hc : c.Reaches c') (hd : d.Reaches d')
    (hrest : c'.rest = d'.rest) : c'.Beside d' := by
  obtain ⟨u, hu⟩ := hc
  have hv : d.Consumes u d' := hd.consumes (by rw [← h.rest, hu.1, hrest])
  refine ⟨hrest, ?_⟩
  rw [hu.2, hv.2]
  exact h.position.advanceOver u

/-- What is read from the start of a document is read behind the mark too. -/
theorem Beside.consumes_mark {text u : List Char} (h : c.Beside d)
    (hc : (⟨.start, text⟩ : Cursor).Consumes u c) :
    (⟨.start, EncodingIssue.byteOrderMark :: text⟩ : Cursor).Consumes
      (EncodingIssue.byteOrderMark :: u) d := by
  obtain ⟨hrest, hposition⟩ := hc
  refine ⟨?_, ?_⟩
  · rw [← h.rest, List.cons_append]
    exact congrArg _ hrest
  · rw [h.position.place, hposition, Position.advanceOver_cons]
    exact (Position.beside_start.advanceOver u).place.symm

theorem Beside.textTo (h : c.Beside d) (h' : c'.Beside d') : c.textTo c' = d.textTo d' := by
  have hlength : d'.offset - d.offset = c'.offset - c.offset := by
    have hstart := h.position.offset
    have hstop := h'.position.offset
    unfold offset
    omega
  rw [Cursor.textTo, Cursor.textTo, hlength, h.rest]

theorem Beside.head (h : c.Beside d) : c.rest.head? = d.rest.head? := by rw [h.rest]

theorem Beside.startsWith (h : c.Beside d) (text : List Char) :
    c.startsWith text = d.startsWith text := by
  rw [Cursor.startsWith, Cursor.startsWith, h.rest]

theorem Beside.advance (h : c.Beside d) : c.advance.Beside d.advance := by
  refine h.onward c.reaches_advance d.reaches_advance ?_
  unfold Cursor.advance
  rw [h.rest]
  split
  · exact h.rest
  · rfl

theorem Beside.skip (h : c.Beside d) (n : Nat) : (c.skip n).Beside (d.skip n) := by
  induction n generalizing c d with
  | zero => exact h
  | succ n ih =>
    have hend : c.atEnd = d.atEnd := congrArg List.isEmpty h.rest
    rw [Cursor.skip, Cursor.skip, hend]
    split
    · exact h
    · exact ih h.advance

theorem Beside.toEnd (h : c.Beside d) : c.toEnd.Beside d.toEnd :=
  h.onward c.reaches_toEnd d.reaches_toEnd rfl

theorem Beside.eatWhile (h : c.Beside d) (p : Char → Bool) :
    (c.eatWhile p).Beside (d.eatWhile p) := by
  refine h.onward (c.reaches_eatWhile p) (d.reaches_eatWhile p) ?_
  rw [Cursor.eatWhile, Cursor.eatWhile, eatWhileFrom_eq, eatWhileFrom_eq, h.rest]

/-! ## What lies ahead -/

theorem Beside.finish (h : c.Beside d) (hc : c.front set = .finish) : d.front set = .finish :=
  front_eq_finish_iff.2 (h.rest ▸ front_eq_finish_iff.1 hc)

/-- A region is one wherever it stands. -/
theorem front_region_of_rest (hrest : c.rest = d.rest) {kind : GuardKind} {after : c.Later}
    (hc : c.front set = .region kind after) :
    ∃ after', d.front set = .region kind after' ∧ after.cursor.rest = after'.cursor.rest := by
  obtain ⟨q, text⟩ := d
  obtain ⟨u, hregion, hu, hline⟩ := front_eq_region hc
  obtain rfl : text = u ++ after.cursor.rest := hrest.symm.trans hu.1
  obtain ⟨after', hfront, hafter⟩ := front_of_isRegion hregion hline q
  exact ⟨after', hfront, by rw [hafter]⟩

theorem front_code_of_rest (hrest : c.rest = d.rest) {ch : Char} {after : c.Later}
    (hc : c.front set = .code ch after) :
    ∃ after', d.front set = .code ch after' ∧ after.cursor.rest = after'.cursor.rest := by
  obtain ⟨q, text⟩ := d
  have hkind := kindAt_of_front_code hc
  obtain rfl : text = ch :: after.cursor.rest := hrest.symm.trans (front_code hc).1
  obtain ⟨after', hfront, hafter⟩ := front_eq_code (hrest ▸ hkind) q
  exact ⟨after', hfront, by rw [hafter]⟩

theorem Beside.region (h : c.Beside d) {kind : GuardKind} {after : c.Later}
    (hc : c.front set = .region kind after) :
    ∃ after', d.front set = .region kind after' ∧ after.cursor.Beside after'.cursor := by
  obtain ⟨after', hfront, hrest⟩ := front_region_of_rest h.rest hc
  exact ⟨after', hfront, h.onward after.reaches after'.reaches hrest⟩

theorem Beside.code (h : c.Beside d) {ch : Char} {after : c.Later}
    (hc : c.front set = .code ch after) :
    ∃ after', d.front set = .code ch after' ∧ after.cursor.Beside after'.cursor := by
  obtain ⟨after', hfront, hrest⟩ := front_code_of_rest h.rest hc
  exact ⟨after', hfront, h.onward after.reaches after'.reaches hrest⟩

/-- What is noted of a region that never ends. -/
theorem front_openRegion_eq {issue : GuardIssue} {atEnd : c.Later}
    (h : c.front set = .openRegion issue atEnd) :
    issue = ⟨if set.kindAt c.rest = some .string then .string (byteAt 0 c.rest) else .blockComment,
      c.position⟩ := by
  obtain ⟨p, text⟩ := c
  cases text with
  | nil => cases h
  | cons ch text =>
    simp only [front] at h
    split at h
    · cases h
    · next hkind =>
      split at h
      · cases h
      · next issue' herror =>
        cases h
        rw [skipString_error rfl herror, if_pos hkind, byteAt_zero]
    · next hkind =>
      split at h
      · cases h
      · cases h
        rw [if_neg (by simp [hkind])]
    · cases h

/-- What is neither the end nor a region nor code is a region that never ends. -/
theorem front_openRegion_of_rest (hrest : c.rest = d.rest) {issue : GuardIssue} {atEnd : c.Later}
    (hc : c.front set = .openRegion issue atEnd) :
    ∃ issue' atEnd', d.front set = .openRegion issue' atEnd' ∧ issue'.region = issue.region := by
  cases hd : d.front set with
  | finish =>
    rw [front_eq_finish_iff.2 (hrest.trans (front_eq_finish_iff.1 hd))] at hc
    cases hc
  | region kind after =>
    obtain ⟨after', hregion, -⟩ := front_region_of_rest hrest.symm hd
    rw [hregion] at hc
    cases hc
  | code ch after =>
    obtain ⟨after', hcode, -⟩ := front_code_of_rest hrest.symm hd
    rw [hcode] at hc
    cases hc
  | openRegion issue' atEnd' =>
    refine ⟨issue', atEnd', rfl, ?_⟩
    rw [front_openRegion_eq hc, front_openRegion_eq hd, hrest]

theorem Beside.openRegion (h : c.Beside d) {issue : GuardIssue} {atEnd : c.Later}
    (hc : c.front set = .openRegion issue atEnd) :
    ∃ issue' atEnd', d.front set = .openRegion issue' atEnd' ∧ issue.Beside issue' ∧
      atEnd.cursor.Beside atEnd'.cursor := by
  obtain ⟨issue', atEnd', hd, hregion⟩ := front_openRegion_of_rest h.rest hc
  have hend : atEnd.cursor.rest = atEnd'.cursor.rest := by
    rw [atEnd_of_front hc, atEnd_of_front hd]
  have hstart : issue.start.Beside issue'.start := by
    rw [front_openRegion_eq hc, front_openRegion_eq hd]
    exact h.position
  exact ⟨issue', atEnd', hd, ⟨hregion, hstart⟩, h.onward atEnd.reaches atEnd'.reaches hend⟩

/-! ## Matching braces -/

/-- Two searches for the brace that closes so many open ones end beside each other. -/
inductive ClosesBeside : Except (Nat × Option GuardIssue) Cursor →
    Except (Nat × Option GuardIssue) Cursor → Prop where
  | ok {x y : Cursor} (found : x.Beside y) : ClosesBeside (.ok x) (.ok y)
  | error {depth : Nat} {i j : Option GuardIssue} (issue : Option.Rel GuardIssue.Beside i j) :
      ClosesBeside (.error (depth, i)) (.error (depth, j))

theorem Beside.closeFrom (h : c.Beside d) (set : GuardSet) (depth : Nat) :
    ClosesBeside (closeFrom set depth c) (closeFrom set depth d) := by
  fun_induction Cursor.closeFrom set depth c generalizing d with
  | case1 depth c hfront =>
    rw [closeFrom.eq_def set depth d, h.finish hfront]
    exact .error .none
  | case2 depth c issue atEnd hfront =>
    obtain ⟨issue', atEnd', hd, hissue, -⟩ := h.openRegion hfront
    rw [closeFrom.eq_def set depth d, hd]
    exact .error (.some hissue)
  | case3 depth c kind after hfront ih =>
    obtain ⟨after', hd, hafter⟩ := h.region hfront
    rw [closeFrom.eq_def set depth d, hd]
    exact ih hafter
  | case4 depth c after hfront ih =>
    obtain ⟨after', hd, hafter⟩ := h.code hfront
    rw [closeFrom.eq_def set depth d, hd]
    exact ih hafter
  | case5 depth c after hdepth hfront hopen =>
    obtain ⟨after', hd, hafter⟩ := h.code hfront
    rw [closeFrom.eq_def set depth d, hd]
    simp only [if_neg hopen, if_true, if_pos hdepth]
    exact .ok h
  | case6 depth c after hdepth hfront hopen ih =>
    obtain ⟨after', hd, hafter⟩ := h.code hfront
    rw [closeFrom.eq_def set depth d, hd]
    simp only [if_neg hopen, if_true, if_neg hdepth]
    exact ih hafter
  | case7 depth c ch after hfront hopen hclose ih =>
    obtain ⟨after', hd, hafter⟩ := h.code hfront
    rw [closeFrom.eq_def set depth d, hd]
    simp only [if_neg hopen, if_neg hclose]
    exact ih hafter

/-- Two braces are closed beside each other, or neither is closed. -/
inductive MatchesBeside {c d : Cursor} : Except Unbalanced c.Later → Except Unbalanced d.Later →
    Prop where
  | ok {x : c.Later} {y : d.Later} (found : x.cursor.Beside y.cursor) :
      MatchesBeside (.ok x) (.ok y)
  | error {u v : Unbalanced} (depth : v.depth = u.depth)
      (issue : Option.Rel GuardIssue.Beside u.issue v.issue) : MatchesBeside (.error u) (.error v)

section Close

variable {p : Position} {ch : Char} {text : List Char}

theorem exists_matchingClose {x : Cursor}
    (h : Cursor.closeFrom set 1 ⟨p.advance ch, text⟩ = .ok x) :
    ∃ close, matchingClose set ⟨p, ch :: text⟩ = .ok close ∧ close.cursor = x := by
  unfold matchingClose
  simp only
  split
  · next y hy =>
    obtain rfl : y = x := Except.ok.inj (hy.symm.trans h)
    exact ⟨_, rfl, rfl⟩
  · next hy => cases hy.symm.trans h

theorem matchingClose_eq_error {depth : Nat} {issue : Option GuardIssue}
    (h : Cursor.closeFrom set 1 ⟨p.advance ch, text⟩ = .error (depth, issue)) :
    matchingClose set ⟨p, ch :: text⟩ = .error ⟨p, depth, issue⟩ := by
  unfold matchingClose
  simp only
  split
  · next hy => cases hy.symm.trans h
  · next hy =>
    cases hy.symm.trans h
    rfl

end Close

theorem Beside.matchingClose (h : c.Beside d) (set : GuardSet) :
    MatchesBeside (c.matchingClose set) (d.matchingClose set) := by
  obtain ⟨p, text⟩ := c
  obtain ⟨q, text'⟩ := d
  obtain rfl : text = text' := h.rest
  cases text with
  | nil => exact .error rfl .none
  | cons ch text =>
    have hclose := h.advance.closeFrom set 1
    change ClosesBeside (Cursor.closeFrom set 1 ⟨p.advance ch, text⟩)
      (Cursor.closeFrom set 1 ⟨q.advance ch, text⟩) at hclose
    generalize hx : Cursor.closeFrom set 1 ⟨p.advance ch, text⟩ = x at hclose
    generalize hy : Cursor.closeFrom set 1 ⟨q.advance ch, text⟩ = y at hclose
    cases hclose with
    | ok found =>
      obtain ⟨close, hclose, rfl⟩ := exists_matchingClose hx
      obtain ⟨close', hclose', rfl⟩ := exists_matchingClose hy
      rw [hclose, hclose']
      exact .ok found
    | error issue =>
      rw [matchingClose_eq_error hx, matchingClose_eq_error hy]
      exact .error rfl issue

/-! ## Heads of blocks -/

section Later

variable {b b' : Cursor} {l : b.Later} {m : b'.Later}

theorem Beside.move (h : l.cursor.Beside m.cursor) (p : Char → Bool) :
    (l.eatWhile p).cursor.Beside (m.eatWhile p).cursor := h.eatWhile p

theorem Beside.agree (h : c.Beside d) : Agree [] c d :=
  ⟨by rw [h.rest, List.append_nil], .inl rfl⟩

/-- Of two readers that set out beside each other only the text ahead has to be compared. -/
theorem Beside.of_agree (hb : b.Beside b') (h : Agree [] l.cursor m.cursor) :
    l.cursor.Beside m.cursor :=
  hb.onward l.reaches m.reaches (by simpa using h.rest)

theorem Beside.declaration? (h : l.cursor.Beside m.cursor) :
    Option.Rel (fun x y => x.1 = y.1 ∧ x.2.cursor.Beside y.2.cursor)
      (Cursor.declaration? l) (Cursor.declaration? m) := by
  have hpast := h.move Char.isAlpha
  unfold Cursor.declaration?
  simp only [hpast.head, h.textTo hpast]
  split
  · cases Context.ofDeclaration? _ with
    | none => exact .none
    | some context => exact .some ⟨rfl, hpast.advance⟩
  · exact .none

theorem originBody?_eq (header : b.Later) :
    originBody? header = ((header.eatWhile isBlank).eat? ['@'] rfl).bind fun sign =>
      let past := sign.eatWhile isWordPart
      let gap := past.eatWhile isBlank
      let brace :=
        if gap.cursor.rest.head?.any isWordStart then
          (gap.eatWhile isWordPart).eatWhile isBlank
        else gap
      if brace.cursor.rest.head? = some '{' then
        some (Context.ofOriginType (String.ofList (sign.cursor.textTo past.cursor)), brace)
      else none := by
  unfold Cursor.originBody?
  simp only
  split
  · next h => rw [Later.eat?_of_none rfl h]; rfl
  · next d h => rw [Later.eat?_of_some rfl h]; rfl

theorem Beside.originBody? (hb : b.Beside b') (h : l.cursor.Beside m.cursor) :
    Option.Rel (fun x y => x.1 = y.1 ∧ x.2.cursor.Beside y.2.cursor)
      (Cursor.originBody? l) (Cursor.originBody? m) := by
  rw [originBody?_eq, originBody?_eq]
  have hat := (h.move isBlank).agree.eat? (show ['@'].all isInlineAscii from rfl)
    (List.forall_mem_singleton.2 rfl)
  generalize (l.eatWhile isBlank).eat? ['@'] rfl = a at hat ⊢
  generalize (m.eatWhile isBlank).eat? ['@'] rfl = a' at hat ⊢
  cases hat with
  | none => exact .none
  | @some sign sign' hat =>
    have hsign := hb.of_agree hat.1
    have hpast := hsign.move isWordPart
    have hgap := hpast.move isBlank
    have hname := (hgap.move isWordPart).move isBlank
    simp only [Option.bind_some, hgap.head, hsign.textTo hpast]
    split
    · rw [hname.head]
      split
      · exact .some ⟨rfl, hname⟩
      · exact .none
    · rw [hgap.head]
      split
      · exact .some ⟨rfl, hgap⟩
      · exact .none

end Later

end Cursor

end Polyglot
