-- SUMMARY: The search for the cuts between statements, step by step.
import Polyglot.Proofs.Operation
import Polyglot.Proofs.Statement

/-!
# The search for cuts

`StatementState.Step` lists what the search for the cuts of a script does at a cursor, and
`StatementState.Runs` is a stretch of the search with the cuts that it finds. The search
comes by every cut (`Runs.exists_cut`) and by every place that the text can be read to,
unless a name goes on there (`Runs.exists_at`). In between it only counts brackets
(`Runs.passes`).
-/

namespace Polyglot

theorem isNamePart_of_isWordStart {ch : Char} (h : isWordStart ch) : isNamePart ch := by
  simp only [isWordStart, isNamePart, Char.isAlphanum, Bool.or_eq_true] at h ⊢
  exact .inl (h.imp_left .inl)

theorem plain_line : GuardSet.script.Plain '\n' :=
  GuardSet.plain_of (by decide) (by decide) (.inr rfl)

theorem isBlank_of_isNamePart {ch : Char} (h : isNamePart ch) : isBlank ch = false := by
  cases hch : isBlank ch with
  | false => rfl
  | true =>
    exfalso
    simp only [isBlank, isHorizontalBlank, Bool.or_eq_true, beq_iff_eq] at hch
    rcases hch with ((rfl | rfl) | rfl) | rfl <;> revert h <;> decide

/-- What is read from inside a name to where no name goes on is read from the end of the name. -/
theorem Cursor.Passes.behind_name {c d : Cursor} {code : List Char} (h : c.Passes .script code d)
    (hname : ∀ ch ∈ d.rest.head?, isNamePart ch = false) :
    ∃ code', (c.eatWhile isNamePart).Passes .script code' d := by
  obtain ⟨name, hread, hpart, hpast⟩ := passes_eatWhile_isNamePart c
  rcases hpast.linear h with ⟨w, -, hw⟩ | ⟨w, -, hw⟩
  · exact ⟨w, hw⟩
  · -- between `d` and the end of the name there is nothing
    obtain ⟨u, hu⟩ := h.reaches
    obtain ⟨v, hv⟩ := hw.reaches
    have hsplit : name = u ++ v := hread.unique (hu.trans hv)
    cases v with
    | nil =>
      obtain rfl : c.eatWhile isNamePart = d := hv.eq_of_nil
      exact ⟨[], .refl _⟩
    | cons ch v =>
      have hhead : d.rest.head? = some ch := by rw [hv.1]; rfl
      have hch := hpart ch (by simp [hsplit])
      rw [hname ch hhead] at hch
      cases hch

namespace StatementState

variable {s t : StatementState} {c d : Cursor} {ch : Char} {code : List Char}

/-! ## Brackets -/

/-- The state behind some code, if every character of it is counted. -/
def countAll (s : StatementState) (code : List Char) : StatementState := code.foldl count s

/-- The two states have the same brackets open. -/
def SameBrackets (s t : StatementState) : Prop := s.braces = t.braces ∧ s.groups = t.groups

theorem SameBrackets.isTopLevel (h : s.SameBrackets t) : s.isTopLevel = t.isTopLevel := by
  rw [StatementState.isTopLevel, h.1, h.2, StatementState.isTopLevel]

theorem SameBrackets.count (h : s.SameBrackets t) (ch : Char) :
    (s.count ch).SameBrackets (t.count ch) := by
  obtain ⟨hbraces, hgroups⟩ := h
  unfold StatementState.count
  split <;> simp [SameBrackets, hbraces, hgroups]

theorem SameBrackets.trans {u : StatementState} (h : s.SameBrackets t) (k : t.SameBrackets u) :
    s.SameBrackets u := ⟨h.1.trans k.1, h.2.trans k.2⟩

theorem SameBrackets.countAll (h : s.SameBrackets t) (code : List Char) :
    (s.countAll code).SameBrackets (t.countAll code) := by
  induction code generalizing s t with
  | nil => exact h
  | cons ch code ih => exact ih (h.count ch)

/-- A character that is no bracket. -/
def IsFlat (ch : Char) : Prop := ch ∉ ['{', '}', '(', '[', ')', ']']

/-- A character that is no bracket only shows that the statement has code. -/
theorem count_of_isFlat (s : StatementState) (h : IsFlat ch) :
    s.count ch = { s with hasCode := true } := by
  simp only [IsFlat, List.mem_cons, List.not_mem_nil, or_false, not_or] at h
  unfold count
  split <;> simp_all

theorem countAll_of_isFlat (s : StatementState) (hs : s.hasCode = true)
    (h : ∀ ch ∈ code, IsFlat ch) : s.countAll code = s := by
  induction code generalizing s with
  | nil => rfl
  | cons ch code ih =>
    have hcount : s.count ch = s := by
      rw [count_of_isFlat s (h ch List.mem_cons_self), ← hs]
    rw [countAll, List.foldl_cons, hcount]
    exact ih s hs fun x hx => h x (List.mem_cons_of_mem ch hx)

theorem isFlat_of_isBlank (h : isBlank ch) : IsFlat ch := by
  rintro hch
  simp only [List.mem_cons, List.not_mem_nil, or_false] at hch
  rcases hch with rfl | rfl | rfl | rfl | rfl | rfl <;> simp [isBlank, isHorizontalBlank] at h

theorem isFlat_of_isNamePart (h : isNamePart ch) : IsFlat ch := by
  rintro hch
  simp only [List.mem_cons, List.not_mem_nil, or_false] at hch
  rcases hch with rfl | rfl | rfl | rfl | rfl | rfl <;> revert h <;> decide

/-- What a character of code adds to the depth of groups. -/
def groupChange (ch : Char) : Int :=
  if ch = '(' ∨ ch = '[' then 1 else if ch = ')' ∨ ch = ']' then -1 else 0

/-- How many more groups than it closes a list of characters of code opens. -/
def groupDepth : List Char → Int
  | [] => 0
  | ch :: code => groupChange ch + groupDepth code

@[simp] theorem groupDepth_nil : groupDepth [] = 0 := rfl

@[simp] theorem groupDepth_cons (ch : Char) (code : List Char) :
    groupDepth (ch :: code) = groupChange ch + groupDepth code := rfl

theorem groupDepth_of_isFlat (h : ∀ ch ∈ code, IsFlat ch) : groupDepth code = 0 := by
  induction code with
  | nil => rfl
  | cons ch code ih =>
    have hch := h ch List.mem_cons_self
    simp only [IsFlat, List.mem_cons, List.not_mem_nil, or_false, not_or] at hch
    rw [groupDepth_cons, ih fun x hx => h x (List.mem_cons_of_mem ch hx)]
    simp [groupChange, hch]

theorem groups_count (s : StatementState) (ch : Char) :
    (s.count ch).groups = s.groups + groupChange ch := by
  unfold count groupChange
  split <;> simp_all [Int.sub_eq_add_neg]

theorem groups_countAll (s : StatementState) (code : List Char) :
    (s.countAll code).groups = s.groups + groupDepth code := by
  induction code generalizing s with
  | nil => simp [countAll]
  | cons ch code ih =>
    have hall : s.countAll (ch :: code) = (s.count ch).countAll code := rfl
    rw [hall, ih, groups_count, groupDepth_cons, Int.add_assoc]

/-- Where no brace is closed too often, the open braces are counted as they are. -/
theorem braces_countAll (s : StatementState)
    (h : ∀ p, p <+: code → 0 ≤ (s.braces : Int) + braceDepth p) :
    ((s.countAll code).braces : Int) = s.braces + braceDepth code := by
  induction code generalizing s with
  | nil => simp [countAll]
  | cons ch code ih =>
    have hall : s.countAll (ch :: code) = (s.count ch).countAll code := rfl
    have hcount : ((s.count ch).braces : Int) = s.braces + braceChange ch :=
      count_braces rfl (by simpa using h [ch] (by simp))
    rw [hall, ih, hcount, braceDepth_cons, Int.add_assoc]
    intro p hp
    rw [hcount, Int.add_assoc, ← braceDepth_cons]
    exact h (ch :: p) (List.cons_prefix_cons.2 ⟨rfl, hp⟩)

theorem hasCode_count (s : StatementState) (ch : Char) : (s.count ch).hasCode = true := by
  unfold count
  split <;> rfl

theorem awaitsBody_count (s : StatementState) (ch : Char) :
    (s.count ch).awaitsBody = (s.awaitsBody && !(ch = '{' && s.isTopLevel)) := by
  unfold count
  split <;> simp_all [isTopLevel]

/-- A statement goes on to wait for its body as long as its brackets are open. -/
theorem awaitsBody_countAll
    (h : ∀ p ch, p ++ [ch] <+: code → (s.countAll p).isTopLevel = false) :
    (s.countAll code).awaitsBody = s.awaitsBody := by
  induction code generalizing s with
  | nil => rfl
  | cons ch code ih =>
    have hs : s.isTopLevel = false := h [] ch (List.cons_prefix_cons.2 ⟨rfl, List.nil_prefix⟩)
    have hmore := ih (s := s.count ch) fun p x hp =>
      h (ch :: p) x (List.cons_prefix_cons.2 ⟨rfl, hp⟩)
    exact hmore.trans (by simp [awaitsBody_count, hs])

/-! ## Line feeds -/

/-- The state behind a line feed outside of brackets. It ends a statement that has code,
unless the statement waits for its body. -/
def line (s : StatementState) : StatementState :=
  if s.hasCode then if s.awaitsBody then { s with awaitsBody := false } else s.fresh else s

/-- A line feed outside of brackets cuts here. -/
def endsAtLine (s : StatementState) : Bool := s.hasCode && !s.awaitsBody

/-- The state behind a number of line feeds. -/
def lines (s : StatementState) (n : Nat) : StatementState :=
  if s.hasCode ∧ 0 < n then { s with hasCode := s.awaitsBody && n = 1, awaitsBody := false } else s

/-- The number of line feeds that do not end the statement. -/
def spared (s : StatementState) : Nat := if s.awaitsBody then 1 else 0

theorem lines_line (s : StatementState) (n : Nat) : s.line.lines n = s.lines (n + 1) := by
  obtain ⟨braces, groups, hasCode, awaitsBody⟩ := s
  cases hasCode <;> cases awaitsBody <;> cases n <;> simp [line, lines, fresh]

theorem sameBrackets_lines (s : StatementState) (n : Nat) : (s.lines n).SameBrackets s := by
  unfold lines
  split <;> exact ⟨rfl, rfl⟩

/-- Code behind the line feeds: the statement still waits if there was none. -/
theorem resume_lines (hs : s.hasCode = true) (n : Nat) :
    { s.lines n with hasCode := true } = { s with awaitsBody := s.awaitsBody && n = 0 } := by
  obtain ⟨braces, groups, hasCode, awaitsBody⟩ := s
  obtain rfl : hasCode = true := hs
  cases n <;> simp [lines]

/-- A statement that has no code behind the line feeds does not wait. -/
theorem awaitsBody_lines (hs : s.hasCode = true) (n : Nat)
    (h : (s.lines n).hasCode = false) : (s.lines n).awaitsBody = false := by
  unfold lines at h ⊢
  split
  · rfl
  · next hnot =>
    rw [if_neg hnot, hs] at h
    cases h

theorem isTopLevel_line (s : StatementState) : s.line.isTopLevel = s.isTopLevel := by
  unfold line
  split
  · split <;> rfl
  · rfl

/-! ## Steps -/

/-- What the search for cuts does at a cursor: the state and the cursor behind it, and the
cut that it finds. -/
inductive Step (s : StatementState) (c : Cursor) :
    StatementState → Cursor → List Cursor → Prop where
  | string {after : c.Later} (ahead : c.front .script = .region .string after) :
      Step s c { s with hasCode := true } after.cursor []
  | comment {kind : GuardKind} {after : c.Later} (ahead : c.front .script = .region kind after)
      (comment : kind ≠ .string) : Step s c s after.cursor []
  | line {after : c.Later} (ahead : c.front .script = .code '\n' after) (level : s.isTopLevel) :
      Step s c s.line after.cursor (if s.endsAtLine then [c] else [])
  | blank {ch : Char} {after : c.Later} (ahead : c.front .script = .code ch after)
      (blank : isBlank ch) (inside : ch = '\n' → s.isTopLevel = false) :
      Step s c s after.cursor []
  /-- The first word of a statement. -/
  | word {ch : Char} {after : c.Later} (ahead : c.front .script = .code ch after)
      (start : isWordStart ch) (first : s.hasCode = false) :
      Step s c
        { s with
          hasCode := true
          awaitsBody :=
            bodyKeywords.contains (String.ofList (c.textTo (after.eatWhile isNamePart).cursor)) }
        (after.eatWhile isNamePart).cursor []
  | code {ch : Char} {after : c.Later} (ahead : c.front .script = .code ch after)
      (solid : isBlank ch = false) (notFirst : s.hasCode = true ∨ isWordStart ch = false)
      (goesOn : ch = ';' → s.isTopLevel = false) : Step s c (s.count ch) after.cursor []
  | semicolon {after : c.Later} (ahead : c.front .script = .code ';' after)
      (level : s.isTopLevel) : Step s c s.fresh after.cursor [after.cursor]

/-- The search goes on behind a step, with the cut that the step found. -/
theorem Step.cutsFrom_eq {found : List Cursor} (h : Step s c t d found) (cuts : List Cursor) :
    cutsFrom s cuts c = cutsFrom t (found ++ cuts) d := by
  rw [cutsFrom]
  cases h with
  | string ahead => simp [ahead]
  | @comment kind after ahead comment =>
    rw [ahead]
    cases kind with
    | string => exact absurd rfl comment
    | _ => rfl
  | @line after ahead level =>
    obtain ⟨braces, groups, hasCode, awaitsBody⟩ := s
    rw [ahead]
    cases hasCode <;> cases awaitsBody <;>
      simp [level, StatementState.line, endsAtLine, isBlank, isHorizontalBlank]
  | @blank ch after ahead blank inside =>
    rw [ahead]
    by_cases hline : ch = '\n'
    · simp [blank, inside hline]
    · simp [blank, hline]
  | @word ch after ahead start first =>
    rw [ahead]
    simp [isBlank_of_isNamePart (isNamePart_of_isWordStart start), start, first]
  | @code ch after ahead solid notFirst goesOn =>
    rw [ahead]
    have hword : (!s.hasCode && isWordStart ch) = false := by
      rcases notFirst with hcode | hstart
      · simp [hcode]
      · simp [hstart]
    by_cases hsemi : ch = ';'
    · subst hsemi
      have hlevel : (s.count ';').isTopLevel = false := goesOn rfl
      simp [solid, hword, hlevel]
    · simp [solid, hword, hsemi]
  | @semicolon after ahead level =>
    have hlevel : (s.count ';').isTopLevel = true := level
    have hfresh : (s.count ';').fresh = s.fresh := rfl
    rw [ahead]
    simp [isBlank, isHorizontalBlank, isWordStart, hlevel, hfresh]

/-- A step reads on, and the cut that it finds lies in what it reads. -/
theorem Step.reaches {found : List Cursor} (h : Step s c t d found) :
    c.StrictlyReaches d ∧ ∀ x ∈ found, c.Reaches x ∧ x.Reaches d := by
  cases h with
  | @string after ahead => exact ⟨after.strictlyReaches, by simp⟩
  | @comment kind after ahead comment => exact ⟨after.strictlyReaches, by simp⟩
  | @line after ahead level =>
    refine ⟨after.strictlyReaches, fun x hx => ?_⟩
    obtain rfl : x = c := by
      split at hx
      · exact List.mem_singleton.1 hx
      · cases hx
    exact ⟨.refl x, after.reaches⟩
  | @blank ch after ahead blank inside => exact ⟨after.strictlyReaches, by simp⟩
  | @word ch after ahead start first =>
    exact ⟨(after.eatWhile isNamePart).strictlyReaches, by simp⟩
  | @code ch after ahead solid notFirst goesOn => exact ⟨after.strictlyReaches, by simp⟩
  | @semicolon after ahead level =>
    refine ⟨after.strictlyReaches, fun x hx => ?_⟩
    rw [List.mem_singleton.1 hx]
    exact ⟨after.reaches, .refl _⟩

/-! ## Runs -/

/-- A stretch of the search: where it begins and ends, in which states, and the cuts that it
finds. -/
inductive Runs : StatementState → Cursor → StatementState → Cursor → List Cursor → Prop where
  | refl (s : StatementState) (c : Cursor) : Runs s c s c []
  | step {s t u : StatementState} {c d e : Cursor} {found cuts : List Cursor}
      (first : Step s c t d found) (more : Runs t d u e cuts) : Runs s c u e (found ++ cuts)

variable {u : StatementState} {e : Cursor} {cuts : List Cursor}

theorem Step.runs {found : List Cursor} (h : Step s c t d found) : Runs s c t d found := by
  simpa using Runs.step h (.refl t d)

theorem Runs.trans {more : List Cursor} (h : Runs s c t d cuts) (k : Runs t d u e more) :
    Runs s c u e (cuts ++ more) := by
  induction h with
  | refl => exact k
  | step first _ ih =>
    rw [List.append_assoc]
    exact .step first (ih k)

theorem Runs.cutsFrom_eq (h : Runs s c t d cuts) (earlier : List Cursor) :
    cutsFrom s earlier c = cutsFrom t (cuts.reverse ++ earlier) d := by
  induction h generalizing earlier with
  | refl => rfl
  | @step s t u c d e found cuts first more ih =>
    have hfound : found.reverse = found := by
      cases first with
      | line => split <;> rfl
      | _ => rfl
    rw [first.cutsFrom_eq, ih, List.reverse_append, hfound, List.append_assoc]

theorem Runs.reaches (h : Runs s c t d cuts) :
    c.Reaches d ∧ ∀ x ∈ cuts, c.Reaches x ∧ x.Reaches d := by
  induction h with
  | refl s c => exact ⟨.refl c, by simp⟩
  | step first more ih =>
    obtain ⟨hstep, hfound⟩ := first.reaches
    obtain ⟨hmore, hcuts⟩ := ih
    refine ⟨hstep.reaches.trans hmore, fun x hx => ?_⟩
    rcases List.mem_append.1 hx with hx | hx
    · exact ⟨(hfound x hx).1, (hfound x hx).2.trans hmore⟩
    · exact ⟨hstep.reaches.trans (hcuts x hx).1, (hcuts x hx).2⟩

/-- Only in front of a line feed is a cut found where the search stands. -/
theorem Runs.strictlyReaches (h : Runs s c t d cuts) (hc : c.rest.head? ≠ some '\n') :
    ∀ x ∈ cuts, c.StrictlyReaches x := by
  cases h with
  | refl => simp
  | step first more =>
    intro x hx
    rcases List.mem_append.1 hx with hx | hx
    · cases first with
      | @line after ahead level =>
        rw [(Cursor.front_code ahead).1] at hc
        exact absurd rfl hc
      | @semicolon after ahead level =>
        rw [List.mem_singleton.1 hx]
        exact after.strictlyReaches
      | _ => cases hx
    · exact first.reaches.1.trans_reaches (more.reaches.2 x hx).1

/-- The search stops where nothing more can be read, and else it makes a step. -/
theorem exists_step (s : StatementState) (c : Cursor) :
    ((∀ cuts, cutsFrom s cuts c = cuts) ∧ ∀ code d, c.Passes .script code d → d = c) ∨
    ∃ t d found, Step s c t d found := by
  cases ahead : c.front .script with
  | finish =>
    refine .inl ⟨fun cuts => by rw [cutsFrom, ahead], fun code d h => ?_⟩
    cases h <;> simp_all
  | openRegion issue atEnd =>
    refine .inl ⟨fun cuts => by rw [cutsFrom, ahead], fun code d h => ?_⟩
    cases h <;> simp_all
  | region kind after =>
    by_cases hkind : kind = .string
    · subst hkind
      exact .inr ⟨_, _, _, .string ahead⟩
    · exact .inr ⟨_, _, _, .comment ahead hkind⟩
  | code ch after =>
    right
    cases hblank : isBlank ch with
    | true =>
      by_cases hline : ch = '\n' ∧ s.isTopLevel
      · obtain ⟨rfl, hlevel⟩ := hline
        exact ⟨_, _, _, .line ahead hlevel⟩
      · exact ⟨_, _, _, .blank ahead hblank fun h => by simpa [h] using hline⟩
    | false =>
      by_cases hword : s.hasCode = false ∧ isWordStart ch
      · exact ⟨_, _, _, .word ahead hword.2 hword.1⟩
      · have hnot : s.hasCode = true ∨ isWordStart ch = false := by
          simpa [Decidable.or_iff_not_imp_left] using hword
        by_cases hsemi : ch = ';' ∧ s.isTopLevel
        · obtain ⟨rfl, hlevel⟩ := hsemi
          exact ⟨_, _, _, .semicolon ahead hlevel⟩
        · exact ⟨_, _, _, .code ahead hblank hnot fun h => by simpa [h] using hsemi⟩

/-- The search from a cursor on is a run to where it stops. -/
theorem exists_runs (s : StatementState) (c : Cursor) :
    ∃ t d cuts, Runs s c t d cuts ∧ (∀ earlier, cutsFrom s earlier c = cuts.reverse ++ earlier) ∧
      ∀ code e, d.Passes .script code e → e = d := by
  obtain ⟨hcuts, hstop⟩ | ⟨t, d, found, hstep⟩ := exists_step s c
  · exact ⟨s, c, [], .refl s c, hcuts, hstop⟩
  · have hshorter := hstep.reaches.1.length_lt
    obtain ⟨u, e, cuts, hruns, hcuts, hstop⟩ := exists_runs t d
    refine ⟨u, e, found ++ cuts, .step hstep hruns, fun earlier => ?_, hstop⟩
    rw [hstep.runs.cutsFrom_eq, hcuts, List.reverse_append, List.append_assoc]
termination_by c.rest.length

/-! ## Where the search comes by -/

/-- A run comes by each cut that it finds, in a state in which no bracket is open: in front of
a line feed that ends the statement, or behind the end of the statement. -/
theorem Runs.exists_cut (h : Runs s c t d cuts) {x : Cursor} (hx : x ∈ cuts) :
    ∃ u found, Runs s c u x found ∧ u.isTopLevel ∧
      (u.hasCode = false ∨ x.rest.head? = some '\n' ∧ u.endsAtLine) := by
  induction h with
  | refl => cases hx
  | @step s t u c d e found cuts first more ih =>
    rcases List.mem_append.1 hx with hx | hx
    · cases first with
      | @line after ahead level =>
        split at hx
        · next hends =>
          rw [List.mem_singleton.1 hx]
          refine ⟨s, [], .refl s c, level, .inr ⟨?_, hends⟩⟩
          rw [(Cursor.front_code ahead).1]
          rfl
        · cases hx
      | @semicolon after ahead level =>
        rw [List.mem_singleton.1 hx]
        exact ⟨s.fresh, _, Step.runs (.semicolon ahead level), level, .inl rfl⟩
      | _ => cases hx
    · obtain ⟨v, found', hruns, hrest⟩ := ih hx
      exact ⟨v, found ++ found', .step first hruns, hrest⟩

/-- A step reads an item, or the first word of a statement. -/
theorem Step.passes {found : List Cursor} (h : Step s c t d found) :
    ∃ code, c.Passes .script code d ∧ t.SameBrackets (s.countAll code) := by
  have hflat : ∀ {ch}, IsFlat ch → ∀ {t : StatementState}, t.SameBrackets s →
      t.SameBrackets (s.countAll [ch]) := by
    intro ch hch t hsame
    have hcount : s.countAll [ch] = s.count ch := rfl
    rw [hcount, count_of_isFlat s hch]
    exact hsame
  cases h with
  | string ahead => exact ⟨[], .region ahead (.refl _), rfl, rfl⟩
  | comment ahead comment => exact ⟨[], .region ahead (.refl _), rfl, rfl⟩
  | line ahead level =>
    refine ⟨['\n'], .code ahead (.refl _), hflat (by simp [IsFlat]) ?_⟩
    unfold StatementState.line
    split
    · split <;> exact ⟨rfl, rfl⟩
    · exact ⟨rfl, rfl⟩
  | @blank ch after ahead blank inside =>
    exact ⟨[ch], .code ahead (.refl _), hflat (isFlat_of_isBlank blank) ⟨rfl, rfl⟩⟩
  | @word ch after ahead start first =>
    obtain ⟨name, -, hname, hpast⟩ := Cursor.passes_eatWhile_isNamePart after.cursor
    refine ⟨ch :: name, .code ahead hpast, ?_⟩
    have hch : IsFlat ch := isFlat_of_isNamePart (isNamePart_of_isWordStart start)
    have hall : s.countAll (ch :: name) = { s with hasCode := true } := by
      rw [countAll, List.foldl_cons, count_of_isFlat s hch]
      exact countAll_of_isFlat _ rfl fun x hx => isFlat_of_isNamePart (hname x hx)
    rw [hall]
    exact ⟨rfl, rfl⟩
  | @code ch after ahead solid notFirst goesOn => exact ⟨[ch], .code ahead (.refl _), rfl, rfl⟩
  | @semicolon after ahead level => exact ⟨[';'], .code ahead (.refl _), rfl, rfl⟩

/-- The brackets open at the end of a run are those of the code that was read. -/
theorem Runs.passes (h : Runs s c t d cuts) :
    ∃ code, c.Passes .script code d ∧ t.SameBrackets (s.countAll code) := by
  induction h with
  | refl s c => exact ⟨[], .refl c, rfl, rfl⟩
  | @step s t u c d e found cuts first more ih =>
    obtain ⟨code, hcode, hsame⟩ := first.passes
    obtain ⟨code', hcode', hsame'⟩ := ih
    refine ⟨code ++ code', hcode.trans hcode', ?_⟩
    have hall : s.countAll (code ++ code') = (s.countAll code).countAll code' :=
      List.foldl_append ..
    rw [hall]
    exact hsame'.trans (hsame.countAll code')

/-- A run comes by wherever the text can be read to, unless a name goes on there. -/
theorem Runs.exists_at (h : Runs s c t d cuts)
    (hstop : ∀ code e, d.Passes .script code e → e = d) {x : Cursor}
    (hx : c.Passes .script code x) (hname : ∀ ch ∈ x.rest.head?, isNamePart ch = false) :
    ∃ u found, Runs s c u x found := by
  induction h generalizing code with
  | refl s c =>
    rw [hstop code x hx]
    exact ⟨s, [], .refl s c⟩
  | @step s t u c d e found cuts first more ih =>
    -- the step ends where the reading of `x` goes on, or `x` is where the step begins
    suffices x = c ∨ ∃ code', d.Passes .script code' x by
      obtain rfl | ⟨code', hcode'⟩ := this
      · exact ⟨s, [], .refl s x⟩
      · obtain ⟨v, found', hruns⟩ := ih hstop hcode'
        exact ⟨v, found ++ found', .step first hruns⟩
    cases hx with
    | refl => exact .inl rfl
    | region ahead hmore =>
      right
      cases first with
      | string ahead' | comment ahead' | line ahead' | blank ahead' | word ahead' | code ahead'
      | semicolon ahead' =>
        rw [ahead] at ahead'
        cases ahead'
        try exact ⟨_, hmore⟩
    | code ahead hmore =>
      right
      cases first with
      | word ahead' =>
        rw [ahead] at ahead'
        cases ahead'
        exact hmore.behind_name hname
      | string ahead' | comment ahead' | line ahead' | blank ahead' | code ahead'
      | semicolon ahead' =>
        rw [ahead] at ahead'
        cases ahead'
        try exact ⟨_, hmore⟩

/-- A stretch of code in a statement is only counted, if the line feeds and semicolons in it
stand in brackets. -/
theorem runs_countAll (h : c.Passes .script code d) (hs : s.hasCode = true)
    (hquiet : ∀ p ch, p ++ [ch] <+: code → ch = '\n' ∨ ch = ';' →
      (s.countAll p).isTopLevel = false) :
    Runs s c (s.countAll code) d [] := by
  have hkeep : { s with hasCode := true } = s := by rw [← hs]
  induction h generalizing s with
  | refl c => exact .refl s c
  | @region c d kind after code ahead more ih =>
    have hmore := ih hs hquiet hkeep
    by_cases hkind : kind = .string
    · subst hkind
      have hstep := Step.string (s := s) ahead
      rw [hkeep] at hstep
      exact .step hstep hmore
    · exact .step (.comment ahead hkind) hmore
  | @code c d ch after code ahead more ih =>
    have hfirst : ch = '\n' ∨ ch = ';' → s.isTopLevel = false :=
      hquiet [] ch (List.cons_prefix_cons.2 ⟨rfl, List.nil_prefix⟩)
    have hmore : Runs (s.count ch) after.cursor (s.countAll (ch :: code)) d [] := by
      refine ih (hasCode_count s ch) (fun p x hp hx => ?_) (by rw [← hasCode_count s ch])
      exact hquiet (ch :: p) x (List.cons_prefix_cons.2 ⟨rfl, hp⟩) hx
    cases hblank : isBlank ch with
    | true =>
      have hcount : s.count ch = s := by rw [count_of_isFlat s (isFlat_of_isBlank hblank), hkeep]
      rw [hcount] at hmore
      exact .step (.blank ahead hblank fun hline => hfirst (.inl hline)) hmore
    | false => exact .step (.code ahead hblank (.inl hs) fun hsemi => hfirst (.inr hsemi)) hmore

end StatementState

end Polyglot
