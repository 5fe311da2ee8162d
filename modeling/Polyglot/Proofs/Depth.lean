-- SUMMARY: The search for a closing brace agrees with the depth of the texts around the brace.
import Polyglot.Proofs.Beside

/-!
# The search for a closing brace

The search goes on over the whole document, while a depth is that of a text read on its
own. A text may be cut off inside a region, or behind two hyphens that are a comment only
because nothing follows them. Neither changes a depth: where a text is cut off, its depth is
that of a beginning of the code that the search met (`Cursor.Passes.exists_depth`). So the
search stops at the first brace where the depth returns to zero
(`Cursor.matchingClose_byDepth`).
-/

namespace Polyglot

namespace Cursor

variable {set : GuardSet} {c d : Cursor} {code u tail p : List Char}

/-! ## Texts that leave the depth alone -/

/-- However much of the text is left, it changes no depth. -/
def IsFlat (set : GuardSet) (text : List Char) : Prop :=
  ∀ x, x <+: text → ∀ net pos, netDepthFrom set net ⟨pos, x⟩ = net

theorem isFlat_nil (set : GuardSet) : IsFlat set [] := by
  intro x hx net pos
  rw [List.prefix_nil.1 hx, netDepthFrom_nil]

theorem netDepthFrom_openRegion {issue : GuardIssue} {next : c.Later} (net : Int)
    (h : c.front set = .openRegion issue next) : netDepthFrom set net c = net := by
  rw [netDepthFrom, h]

theorem stringEnd_of_skipString {pos : Position} {ch : Char} {rest : List Char}
    {issue : GuardIssue} (h : skipString ⟨pos, ch :: rest⟩ = .error issue) :
    stringEnd (firstByte ch) (pos.advance ch) rest = none := by
  cases hend : stringEnd (firstByte ch) (pos.advance ch) rest with
  | none => rfl
  | some d =>
    let after : (⟨pos, ch :: rest⟩ : Cursor).Later :=
      (Cursor.next ⟨pos, ch :: rest⟩ ch rest rfl).move d (stringEnd_reaches hend)
    have hok : skipString ⟨pos, ch :: rest⟩ = .ok after := skipString_eq_ok_iff.2 hend
    rw [hok] at h
    cases h

/-- A beginning of a string that never ends does not end either. -/
theorem stringEnd_shorter {quote : UInt8} {pos : Position} {text x : List Char}
    (h : stringEnd quote pos text = none) (hx : x <+: text) (q : Position) :
    stringEnd quote q x = none := by
  obtain ⟨more, rfl⟩ := hx
  cases hd : stringEnd quote q x with
  | none => rfl
  | some d =>
    obtain ⟨v, e, hv, -, hlocal⟩ := stringEnd_eq_some hd
    rw [hv, List.append_assoc, List.cons_append, hlocal] at h
    cases h

theorem findFrom_shorter {needle : List Char} {pos : Position} {text x : List Char}
    (h : findFrom needle pos text = none) (hx : x <+: text) (q : Position) :
    findFrom needle q x = none := by
  obtain ⟨more, rfl⟩ := hx
  cases hd : findFrom needle q x with
  | none => rfl
  | some d =>
    obtain ⟨v, r, hv, -, hlocal⟩ := findFrom_eq_some hd
    rw [hv, List.append_assoc, List.append_assoc, hlocal] at h
    cases h

/-- The beginning of a region that never ends is one, or the slash of a comment as code. -/
theorem front_cut_openRegion {ch : Char} {rest x : List Char} {pos : Position}
    {issue : GuardIssue} {next : (⟨pos, ch :: rest⟩ : Cursor).Later}
    (h : front set ⟨pos, ch :: rest⟩ = .openRegion issue next) (hx : x <+: rest) (q : Position) :
    (∃ issue after, front set ⟨q, ch :: x⟩ = .openRegion issue after) ∨
      (x = [] ∧ ch = '/' ∧ set.kindAt [ch] = none) := by
  simp only [front] at h
  split at h
  · cases h
  · next hkind =>
    split at h
    · cases h
    · next hskip =>
      obtain ⟨issue', hskip'⟩ := skipString_eq_error
        (stringEnd_shorter (stringEnd_of_skipString hskip) hx (q.advance ch))
      have hkind' : set.kindAt (ch :: x) = some .string :=
        GuardSet.kindAt_string_iff.2 (GuardSet.kindAt_string_iff.1 hkind)
      refine .inl ⟨issue', (Cursor.next ⟨q, ch :: x⟩ ch x rfl).toEnd, ?_⟩
      simp only [front, hkind', hskip']
  · next hkind =>
    split at h
    · cases h
    · next hend =>
      obtain ⟨hcode, hon, rfl, after, rfl⟩ := GuardSet.kindAt_blockComment_iff.1 hkind
      cases x with
      | nil => exact .inr ⟨rfl, rfl, by simp [GuardSet.kindAt, hcode]⟩
      | cons y x =>
        obtain ⟨rfl, hxs⟩ : y = '*' ∧ x <+: after := List.cons_prefix_cons.1 hx
        have hfind : findFrom ['*', '/'] ((pos.advance '/').advance '*') after = none :=
          blockCommentEnd_eq_none_iff.1 hend
        have hkind' : set.kindAt ('/' :: '*' :: x) = some .blockComment :=
          GuardSet.kindAt_blockComment_iff.2 ⟨hcode, hon, rfl, _, rfl⟩
        have hend' : blockCommentEnd (Cursor.next ⟨q, '/' :: '*' :: x⟩ '/' _ rfl) = none :=
          blockCommentEnd_eq_none_iff.2 (findFrom_shorter hfind hxs ((q.advance '/').advance '*'))
        refine .inl ⟨⟨.blockComment, q⟩, (Cursor.next ⟨q, '/' :: '*' :: x⟩ '/' _ rfl).toEnd, ?_⟩
        simp only [front, hkind', hend']
  · cases h

theorem isFlat_openRegion {issue : GuardIssue} {next : c.Later}
    (h : c.front set = .openRegion issue next) : IsFlat set c.rest := by
  obtain ⟨pos, text⟩ := c
  intro x hx net q
  cases x with
  | nil => rw [netDepthFrom_nil]
  | cons ch x =>
    obtain ⟨rest, rfl⟩ : ∃ rest, text = ch :: rest := by
      obtain ⟨more, rfl⟩ := hx
      exact ⟨x ++ more, rfl⟩
    have hx' : x <+: rest := (List.cons_prefix_cons.1 hx).2
    rcases front_cut_openRegion h hx' q with ⟨issue, after, hfront⟩ | ⟨rfl, rfl, hkind⟩
    · exact netDepthFrom_openRegion net hfront
    · obtain ⟨after, hfront, hafter⟩ := front_eq_code hkind q
      rw [netDepthFrom, hfront]
      simp [hafter, netDepthFrom_nil]

/-! ## Texts that are cut off -/

/-- A character of code begins a region at the end of a text only as the first of two hyphens. -/
theorem kindAt_shorter {ch : Char} {rest x : List Char} (h : set.kindAt (ch :: rest) = none)
    (hx : x <+: rest) : set.kindAt (ch :: x) = none ∨
      (ch = '-' ∧ x = ['-'] ∧ set.kindAt (ch :: x) = some .generatorComment) := by
  obtain ⟨more, rfl⟩ := hx
  cases hkind : set.kindAt (ch :: x) with
  | none => exact .inl rfl
  | some kind =>
    right
    have hno : ∀ kind, set.kindAt (ch :: (x ++ more)) ≠ some kind := by simp [h]
    cases kind with
    | string =>
      exact absurd (GuardSet.kindAt_string_iff.2 (GuardSet.kindAt_string_iff.1 hkind)) (hno _)
    | lineComment =>
      obtain ⟨hcode, hon, hch, t, rfl⟩ := GuardSet.kindAt_lineComment_iff.1 hkind
      exact absurd (GuardSet.kindAt_lineComment_iff.2 ⟨hcode, hon, hch, _, rfl⟩) (hno _)
    | blockComment =>
      obtain ⟨hcode, hon, hch, t, rfl⟩ := GuardSet.kindAt_blockComment_iff.1 hkind
      exact absurd (GuardSet.kindAt_blockComment_iff.2 ⟨hcode, hon, hch, _, rfl⟩) (hno _)
    | generatorComment =>
      obtain ⟨hcode, hon, hch, t, rfl, hblank⟩ := GuardSet.kindAt_generatorComment_iff.1 hkind
      cases t with
      | nil => exact ⟨hch, rfl, rfl⟩
      | cons y t =>
        have hlong : set.kindAt (ch :: ('-' :: y :: t ++ more)) = some .generatorComment :=
          GuardSet.kindAt_generatorComment_iff.2 ⟨hcode, hon, hch, _, rfl, hblank⟩
        exact absurd hlong (hno _)

theorem atLineEnd_shorter {text x : List Char} (h : AtLineEnd text) (hx : x <+: text) :
    AtLineEnd x := by
  cases x with
  | nil => rfl
  | cons ch x =>
    obtain ⟨more, rfl⟩ := hx
    exact h

/-- The text is read up to `d`, and nothing behind `d` counts. Where it is cut off, its depth
is that of a beginning of the code, and that of all the code where all of it was read. -/
theorem Passes.exists_depth (h : c.Passes set code d) (hu : c.rest = u ++ d.rest)
    (htail : tail <+: d.rest) (hflat : IsFlat set tail) (hp : p <+: u ++ tail) :
    ∃ code₁, code₁ <+: code ∧ (u <+: p → braceDepth code₁ = braceDepth code) ∧
      ∀ net pos, netDepthFrom set net ⟨pos, p⟩ = net + braceDepth code₁ := by
  induction h generalizing u p with
  | refl c =>
    obtain rfl : u = [] := by simpa using hu
    exact ⟨[], List.prefix_rfl, fun _ => rfl, fun net pos => by simp [hflat p hp net pos]⟩
  | @region c d kind after code ahead more ih =>
    obtain ⟨t, hregion, ht, hline⟩ := front_eq_region ahead
    obtain ⟨w, hw⟩ := more.reaches
    obtain rfl : u = t ++ w := List.append_cancel_right (hu.symm.trans (ht.trans hw).1)
    rw [List.append_assoc] at hp
    by_cases htp : t <+: p
    · -- the whole region is left
      obtain ⟨q, rfl⟩ := htp
      have hq : q <+: w ++ tail := (List.prefix_append_right_inj t).1 hp
      have hend : kind.isLine → AtLineEnd q := fun hkind =>
        atLineEnd_shorter (hline hkind)
          (hw.1 ▸ hq.trans ((List.prefix_append_right_inj w).2 htail))
      obtain ⟨code₁, hcode, hwhole, hdepth⟩ := ih hw.1 htail hq
      refine ⟨code₁, hcode, fun hle => hwhole ((List.prefix_append_right_inj t).1 hle), ?_⟩
      intro net pos
      obtain ⟨next, hfront, hnext⟩ := front_of_isRegion hregion hend pos
      rw [netDepthFrom, hfront]
      simp only [hnext]
      exact hdepth net _
    · obtain ⟨s, rfl⟩ :=
        (List.prefix_or_prefix_of_prefix hp (List.prefix_append t _)).resolve_right htp
      have hs : s ≠ [] := by
        rintro rfl
        exact htp (by simp)
      refine ⟨[], List.nil_prefix, fun hle => absurd ((List.prefix_append _ w).trans hle) htp, ?_⟩
      intro net pos
      rw [braceDepth_nil, Int.add_zero]
      by_cases hnil : p = []
      · rw [hnil, netDepthFrom_nil]
      · exact netDepthFrom_cut_region hregion hnil hs net pos
  | @code c d ch after code ahead more ih =>
    obtain ⟨hrest, hpos⟩ := front_code ahead
    obtain ⟨w, hw⟩ := more.reaches
    obtain rfl : u = ch :: w := by
      rw [hrest, hw.1] at hu
      exact List.append_cancel_right (hu.symm.trans (List.cons_append ..).symm)
    cases p with
    | nil =>
      exact ⟨[], List.nil_prefix, fun hle => absurd (List.prefix_nil.1 hle) (by simp),
        fun net pos => by simp [netDepthFrom_nil]⟩
    | cons x q =>
      obtain ⟨rfl, hq⟩ : x = ch ∧ q <+: w ++ tail := List.cons_prefix_cons.1 hp
      have hlong : q <+: after.cursor.rest :=
        hw.1 ▸ hq.trans ((List.prefix_append_right_inj w).2 htail)
      rcases kindAt_shorter (hrest ▸ kindAt_of_front_code ahead) hlong with
        hkind | ⟨rfl, rfl, hkind⟩
      · obtain ⟨code₁, hcode, hwhole, hdepth⟩ := ih hw.1 htail hq
        refine ⟨x :: code₁, List.cons_prefix_cons.2 ⟨rfl, hcode⟩, fun hle => ?_, ?_⟩
        · rw [braceDepth_cons, braceDepth_cons, hwhole (List.cons_prefix_cons.1 hle).2]
        · intro net pos
          obtain ⟨next, hfront, hnext⟩ := front_eq_code hkind pos
          rw [netDepthFrom, hfront, braceDepth_cons, ← Int.add_assoc]
          simp only [hnext]
          exact hdepth _ _
      · -- two hyphens at the end of the text are a comment
        refine ⟨[], List.nil_prefix, fun hle => ?_, ?_⟩
        · refine (braceDepth_eq_zero fun y hy => ?_).symm
          have hread : c.Consumes ('-' :: w) d := (Passes.code ahead more).reaches.consumes hu
          have hmem := hle.subset ((Passes.code ahead more).mem_of_mem hread hy)
          simp only [List.mem_cons, List.not_mem_nil, or_false, or_self] at hmem
          subst hmem
          decide
        · intro net pos
          have hline : IsRegion set .generatorComment ['-', '-'] := by
            obtain ⟨hquote, hon, -⟩ := GuardSet.kindAt_generatorComment_iff.1 hkind
            exact .generatorComment hquote hon rfl (by decide)
          rw [(hline.passes_alone pos).netDepthFrom_eq, netDepthFrom_nil]

/-- The depth of a text that holds all that was read is that of the code. -/
theorem Passes.netDepth_eq (h : c.Passes set code d) (hu : c.rest = u ++ d.rest)
    (htail : tail <+: d.rest) (hflat : IsFlat set tail) (hp : p <+: u ++ tail) (hle : u <+: p) :
    netDepth set p = braceDepth code := by
  obtain ⟨code₁, -, hwhole, hdepth⟩ := h.exists_depth hu htail hflat hp
  rw [netDepth, hdepth, hwhole hle, Int.zero_add]

/-- Where no beginning of the code closes more than it opens, no beginning of the text does. -/
theorem Passes.netDepth_nonneg (h : c.Passes set code d) (hu : c.rest = u ++ d.rest)
    (htail : tail <+: d.rest) (hflat : IsFlat set tail) (hp : p <+: u ++ tail)
    (hsane : ∀ q, q <+: code → 0 ≤ braceDepth q) : 0 ≤ netDepth set p := by
  obtain ⟨code₁, hcode, -, hdepth⟩ := h.exists_depth hu htail hflat hp
  rw [netDepth, hdepth, Int.zero_add]
  exact hsane code₁ hcode

/-! ## Searches that fail -/

/-- A string or a block comment of the text ahead is never closed. -/
def RunsOut (set : GuardSet) (c : Cursor) (issue : GuardIssue) : Prop :=
  ∃ code d, ∃ atEnd : d.Later, c.Passes set code d ∧ d.front set = .openRegion issue atEnd

theorem Passes.leftOpen_eq (h : c.Passes set code d) : leftOpen set c = leftOpen set d := by
  induction h with
  | refl => rfl
  | region ahead _ ih => rw [leftOpen, ahead, ← ih]
  | code ahead _ ih => rw [leftOpen, ahead, ← ih]

theorem leftOpen_eq_some_iff {issue : GuardIssue} :
    leftOpen set c = some issue ↔ RunsOut set c issue := by
  constructor
  · intro h
    fun_induction leftOpen set c with
    | case1 => cases h
    | case2 c issue' atEnd hfront =>
      cases h
      exact ⟨[], c, atEnd, .refl c, hfront⟩
    | case3 c kind after hfront ih =>
      obtain ⟨code, d, atEnd, hread, hopen⟩ := ih h
      exact ⟨code, d, atEnd, .region hfront hread, hopen⟩
    | case4 c ch after hfront ih =>
      obtain ⟨code, d, atEnd, hread, hopen⟩ := ih h
      exact ⟨ch :: code, d, atEnd, .code hfront hread, hopen⟩
  · rintro ⟨code, d, atEnd, hread, hopen⟩
    rw [hread.leftOpen_eq, leftOpen, hopen]

/-- Where a search fails the text is at its end, or in a region that never ends, and on the
way there at least one brace was open at every point. -/
theorem closeFrom_error {depth n : Nat} {issue : Option GuardIssue}
    (h : closeFrom set depth c = .error (n, issue)) (hdepth : 1 ≤ depth) :
    ∃ code d, c.Passes set code d ∧ IsFlat set d.rest ∧ leftOpen set d = issue ∧
      (∀ p, p <+: code → 1 ≤ depth + braceDepth p) ∧ n = depth + braceDepth code := by
  obtain ⟨code, d, left, hread, hsane, hnet, hhalts⟩ := closeFrom_walk set c hdepth
  rw [h] at hhalts
  refine ⟨code, d, hread, ?_, ?_, hsane, ?_⟩
  · cases hhalts with
    | finish ahead =>
      rw [front_eq_finish_iff.1 ahead]
      exact isFlat_nil set
    | openRegion ahead => exact isFlat_openRegion ahead
  · cases hhalts with
    | finish ahead | openRegion ahead => rw [leftOpen, ahead]
  · cases hhalts with
    | finish | openRegion => exact hnet

/-! ## The search told by depths -/

/-- What a search for the brace that closes the one in front of `rest` comes to, told by the
depth of texts that are read on their own. -/
inductive ClosesByDepth (set : GuardSet) (c : Cursor) (rest : List Char) :
    Except Unbalanced c.Later → Prop where
  /-- Behind a body in which no beginning closes more than it opens stands the first brace
  that closes one more. -/
  | closed {close : c.Later} {body more : List Char} (split : rest = body ++ '}' :: more)
      (read : c.Consumes ('{' :: body) close.cursor) (net : netDepth set body = 0)
      (sane : ∀ p, p <+: body → 0 ≤ netDepth set p)
      (first : netDepth set (body ++ ['}']) = -1) : ClosesByDepth set c rest (.ok close)
  /-- There is no such brace. As many are open as the rest leaves open, and a region is noted
  exactly if one runs to the end of the text. -/
  | unclosed {u : Unbalanced} (opened : u.opened = c.position)
      (depth : (u.depth : Int) = 1 + netDepth set rest)
      (sane : ∀ p, p <+: rest → 0 ≤ netDepth set p)
      (issue : ∀ i, u.issue = some i ↔ RunsOut set ⟨c.position.advance '{', rest⟩ i) :
      ClosesByDepth set c rest (.error u)

/-- The search for a closing brace and the depth of a text agree, whatever is guarded. -/
theorem matchingClose_byDepth {rest : List Char} (h : c.rest = '{' :: rest) :
    ClosesByDepth set c rest (c.matchingClose set) := by
  obtain ⟨pos, text⟩ := c
  obtain rfl : text = '{' :: rest := h
  cases hclose : closeFrom set 1 ⟨pos.advance '{', rest⟩ with
  | ok d =>
    obtain ⟨close, hresult, rfl⟩ := exists_matchingClose hclose
    obtain ⟨code, hread, ⟨after, hbrace⟩, hsane, hnet⟩ := closeFrom_ok hclose (Nat.le_refl 1)
    obtain ⟨body, hbody⟩ := hread.reaches
    have hrest : close.cursor.rest = '}' :: after.cursor.rest := (front_code hbrace).1
    have hbehind : rest = (body ++ ['}']) ++ after.cursor.rest := by
      rw [List.append_assoc, List.singleton_append, ← hrest]
      exact hbody.1
    have hcode : Passes set ⟨pos.advance '{', rest⟩ (code ++ ['}']) after.cursor :=
      hread.trans (.code hbrace (.refl _))
    have hinside : (⟨pos, '{' :: rest⟩ : Cursor).Consumes ('{' :: body) close.cursor :=
      Consumes.trans (u := ['{']) ⟨rfl, rfl⟩ hbody
    rw [hresult]
    refine .closed (hrest ▸ hbody.1) hinside ?_ ?_ ?_
    · rw [hread.netDepth_eq hbody.1 List.nil_prefix (isFlat_nil set) (by simp) List.prefix_rfl]
      omega
    · intro p hp
      refine hread.netDepth_nonneg hbody.1 List.nil_prefix (isFlat_nil set) (by simpa using hp) ?_
      intro q hq
      have := hsane q hq
      omega
    · rw [hcode.netDepth_eq hbehind List.nil_prefix (isFlat_nil set) (by simp) List.prefix_rfl,
        braceDepth_append, braceDepth_cons, braceDepth_nil, braceChange_close]
      omega
  | error found =>
    obtain ⟨n, issue⟩ := found
    obtain ⟨code, d, hread, hflat, hopen, hsane, hnet⟩ := closeFrom_error hclose (Nat.le_refl 1)
    obtain ⟨u, hu⟩ := hread.reaches
    rw [matchingClose_eq_error hclose]
    refine .unclosed rfl ?_ ?_ fun i => ?_
    · rw [hread.netDepth_eq hu.1 List.prefix_rfl hflat (hu.1 ▸ List.prefix_rfl) ⟨d.rest, hu.1.symm⟩]
      exact hnet
    · intro p hp
      refine hread.netDepth_nonneg hu.1 List.prefix_rfl hflat (hu.1 ▸ hp) ?_
      intro q hq
      have := hsane q hq
      omega
    · rw [← leftOpen_eq_some_iff, hread.leftOpen_eq, hopen]

/-- Two hyphens in front of the closing brace are no comment, though they are one in the body
alone; and a string that never ends takes the brace in it. -/
theorem matchingClose_byDepth_hyphens :
    let closed : Cursor := ⟨.start, "\x7b'\x7d'--\x7d".toList⟩
    let unclosed : Cursor := ⟨.start, "\x7b \x7b '\x7d".toList⟩
    (∃ close, closed.matchingClose .template = .ok close ∧ close.cursor = ⟨⟨6, 1, 7⟩, ['}']⟩) ∧
      unclosed.matchingClose .script = .error ⟨.start, 2, some ⟨.string 39, ⟨4, 1, 5⟩⟩⟩ ∧
      ClosesByDepth .template closed closed.rest.tail (closed.matchingClose .template) ∧
      ClosesByDepth .script unclosed unclosed.rest.tail (unclosed.matchingClose .script) := by
  refine ⟨?_, ?_, matchingClose_byDepth rfl, matchingClose_byDepth rfl⟩
  · have hclose : closeFrom .template 1 ⟨⟨1, 1, 2⟩, "'\x7d'--\x7d".toList⟩ =
        .ok ⟨⟨6, 1, 7⟩, ['}']⟩ := by decide +kernel
    exact exists_matchingClose hclose
  · have hclose : closeFrom .script 1 ⟨⟨1, 1, 2⟩, " \x7b '\x7d".toList⟩ =
        .error (2, some ⟨.string 39, ⟨4, 1, 5⟩⟩) := by decide +kernel
    exact matchingClose_eq_error hclose

end Cursor

end Polyglot
