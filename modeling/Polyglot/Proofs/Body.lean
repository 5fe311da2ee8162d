-- SUMMARY: How many line feeds may stand between the header of a statement and its body.
import Polyglot.Boundary
import Polyglot.Proofs.Cut

/-!
# Headers and bodies

A statement that begins with a word that wants a body is not cut at the first line feed
outside of brackets. The line feeds between a header and its body are so counted
(`Cursor.Gap.runs`): a header on one line at the start of a statement spares one, and the
next one cuts; a header that goes over several lines, or one that follows a block of the
same statement, spares none (`Cursor.IsHeader.cut_iff`).
-/

namespace Polyglot

/-! ## What stands between a header and its body -/

namespace Cursor

/-- Between the cursors stand only blanks and comments, with a number of line feeds outside of
the comments. -/
inductive Gap : Cursor → Nat → Cursor → Prop where
  | refl (c : Cursor) : Gap c 0 c
  | comment {c d : Cursor} {n : Nat} {kind : GuardKind} {after : c.Later}
      (ahead : c.front .script = .region kind after) (comment : kind ≠ .string)
      (more : Gap after.cursor n d) : Gap c n d
  | blank {c d : Cursor} {n : Nat} {ch : Char} {after : c.Later}
      (ahead : c.front .script = .code ch after) (blank : isBlank ch) (inline : ch ≠ '\n')
      (more : Gap after.cursor n d) : Gap c n d
  | line {c d : Cursor} {n : Nat} {after : c.Later} (ahead : c.front .script = .code '\n' after)
      (more : Gap after.cursor n d) : Gap c (n + 1) d

variable {s : StatementState} {c d e m : Cursor} {n k : Nat}

theorem Gap.reaches (h : c.Gap n d) : c.Reaches d := by
  induction h with
  | refl c => exact .refl c
  | @comment _ _ _ _ after _ _ _ ih => exact after.reaches.trans ih
  | @blank _ _ _ _ after _ _ _ _ ih => exact after.reaches.trans ih
  | @line _ _ _ after _ _ ih => exact after.reaches.trans ih

/-- Blanks are a gap. -/
theorem Consumes.gap {u : List Char} (h : c.Consumes u d) (hu : ∀ ch ∈ u, isBlank ch) :
    c.Gap (u.count '\n') d := by
  induction u generalizing c with
  | nil =>
    rw [h.eq_of_nil]
    exact .refl c
  | cons ch u ih =>
    have hblank := hu ch List.mem_cons_self
    obtain ⟨p, r⟩ := c
    obtain rfl : r = ch :: (u ++ d.rest) := h.1
    have hplain : GuardSet.script.Plain ch :=
      GuardSet.plain_of_class (by decide) (by decide) (by decide) (by decide) hblank
    obtain ⟨after, hfront, hafter⟩ := front_eq_code (hplain (u ++ d.rest)) p
    have hread : after.cursor.Consumes u d := by
      rw [hafter]
      exact ⟨rfl, h.2⟩
    have hmore := ih hread fun x hx => hu x (List.mem_cons_of_mem ch hx)
    by_cases hline : ch = '\n'
    · subst hline
      rw [List.count_cons_self]
      exact .line hfront hmore
    · rw [List.count_cons_of_ne hline]
      exact .blank hfront hblank hline hmore

/-- Outside of brackets the line feeds of a gap are counted, and more of them than are spared
cut the statement before it. -/
theorem Gap.runs (h : c.Gap n d) (hs : s.isTopLevel) : ∃ cuts, s.Runs c (s.lines n) d cuts ∧
    (cuts ≠ [] ↔ s.hasCode = true ∧ s.spared < n) := by
  induction h generalizing s with
  | refl c =>
    have hlines : s.lines 0 = s := if_neg (by simp)
    rw [hlines]
    exact ⟨[], .refl s c, by simp⟩
  | comment ahead comment more ih =>
    obtain ⟨cuts, hruns, hcuts⟩ := ih hs
    exact ⟨cuts, .step (.comment ahead comment) hruns, hcuts⟩
  | blank ahead blank inline more ih =>
    obtain ⟨cuts, hruns, hcuts⟩ := ih hs
    exact ⟨cuts, .step (.blank ahead blank fun hline => absurd hline inline) hruns, hcuts⟩
  | @line c d n after ahead more ih =>
    obtain ⟨cuts, hruns, hcuts⟩ := ih (s.isTopLevel_line.trans hs)
    rw [StatementState.lines_line] at hruns
    refine ⟨_, .step (.line ahead hs) hruns, ?_⟩
    obtain ⟨braces, groups, hasCode, awaitsBody⟩ := s
    cases hasCode <;> cases awaitsBody <;>
      simp_all [StatementState.line, StatementState.endsAtLine, StatementState.spared,
        StatementState.fresh]

/-! ## Headers -/

/-- A name of a script lies ahead, and ends at `d`. -/
structure Name (c : Cursor) (name : String) (d : Cursor) : Prop where
  read : c.Consumes name.toList d
  start : ∃ ch ∈ name.toList.head?, isNameStart ch
  part : ∀ ch ∈ name.toList, isNamePart ch
  whole : ∀ ch ∈ d.rest.head?, isNamePart ch = false

/-- A group in parentheses lies ahead, and ends at `d`. In it brackets match. -/
inductive Group (c : Cursor) : Cursor → Prop where
  | closed {first : c.Later} {inner : List Char} {m : Cursor} {last : m.Later}
      (opens : c.front .script = .code '(' first) (inside : first.cursor.Passes .script inner m)
      (closes : m.front .script = .code ')' last) (braces : BracesMatch inner)
      (sane : ∀ p, p <+: inner → 0 ≤ StatementState.groupDepth p)
      (settled : StatementState.groupDepth inner = 0) : Group c last.cursor

/-- A block in braces lies ahead, and ends at `d`. In it braces match. -/
inductive Block (c : Cursor) : Cursor → Prop where
  | closed {first : c.Later} {inner : List Char} {m : Cursor} {last : m.Later}
      (opens : c.front .script = .code '{' first) (inside : first.cursor.Passes .script inner m)
      (closes : m.front .script = .code '}' last) (braces : BracesMatch inner) :
      Block c last.cursor

/-- One of the words lies ahead, behind `function` and `class` with the name of what is
declared. Between word and name stand `n` line feeds. -/
inductive Title (words : List String) (c : Cursor) : Nat → Cursor → Prop where
  | word {word : String} {d : Cursor} (listed : word ∈ words) (reads : c.Name word d) :
      Title words c 0 d
  | named {word name : String} {d m e : Cursor} {n : Nat} (listed : word ∈ words)
      (declares : word ∈ ["function", "class"]) (reads : c.Name word d) (gap : d.Gap n m)
      (names : m.Name name e) (isNew : name ∉ bodyKeywords) : Title words c n e

/-- A header that begins with one of the words: its title, and possibly a group behind it. -/
inductive Header (words : List String) (c : Cursor) : Nat → Cursor → Prop where
  | bare {n : Nat} {d : Cursor} (title : c.Title words n d) : Header words c n d
  | grouped {n k : Nat} {d m e : Cursor} (title : c.Title words n d) (gap : d.Gap k m)
      (group : m.Group e) : Header words c (n + k) e

theorem Name.strictlyReaches {name : String} (h : c.Name name d) : c.StrictlyReaches d := by
  obtain ⟨ch, hch, -⟩ := h.start
  obtain ⟨text, htext⟩ := List.head?_eq_some_iff.1 hch
  exact ⟨ch, text, htext ▸ h.read⟩

theorem Name.head?_ne_line {name : String} (h : c.Name name d) : c.rest.head? ≠ some '\n' := by
  obtain ⟨ch, hch, hstart⟩ := h.start
  obtain ⟨text, htext⟩ := List.head?_eq_some_iff.1 hch
  rw [h.read.1, htext]
  rintro ⟨⟩
  simp [isNameStart] at hstart

theorem Name.passes {name : String} (h : c.Name name d) : c.Passes .script name.toList d :=
  h.read.passes_of_plain fun ch hch => plain_of_isNamePart (h.part ch hch)

theorem Group.strictlyReaches (h : c.Group d) : c.StrictlyReaches d := by
  cases h with
  | @closed first inner m last opens inside closes =>
    exact first.strictlyReaches.trans_reaches (inside.reaches.trans last.reaches)

/-- A name in parentheses is a group. -/
theorem Consumes.group {u : List Char} (h : c.Consumes ('(' :: u ++ [')']) d)
    (hu : ∀ ch ∈ u, isNamePart ch) : c.Group d := by
  obtain ⟨p, r⟩ := c
  obtain rfl : r = '(' :: (u ++ ')' :: d.rest) := by simpa using h.1
  have hparen : ∀ ch ∈ ['(', ')'], GuardSet.script.Plain ch := fun ch hch =>
    GuardSet.plain_of_class (q := fun ch => ch == '(' || ch == ')') (by decide) (by decide)
      (by decide) (by decide) (by simpa using hch)
  obtain ⟨first, hfirst, hinside⟩ := front_eq_code (hparen '(' (by simp) (u ++ ')' :: d.rest)) p
  obtain ⟨last, hlast, hend⟩ :=
    front_eq_code (hparen ')' (by simp) d.rest) ((p.advance '(').advanceOver u)
  have hplain : ∀ ch ∈ u, GuardSet.script.Plain ch := fun ch hch => plain_of_isNamePart (hu ch hch)
  have hpasses := Cursor.passes_of_plain hplain (p.advance '(') (')' :: d.rest)
  rw [← hinside] at hpasses
  have hflat : ∀ {q}, q <+: u → ∀ ch ∈ q, isNamePart ch := fun hq ch hch => hu ch (hq.subset hch)
  have hd : last.cursor = d := by
    rw [hend, h.eq_mk]
    simp [Position.advanceOver_append]
  have hbraces : BracesMatch u :=
    ⟨fun q hq => Int.le_of_eq (braceDepth_of_isNamePart (hflat hq)).symm,
      braceDepth_of_isNamePart hu⟩
  have hgroups : ∀ {q}, q <+: u → StatementState.groupDepth q = 0 := fun hq =>
    StatementState.groupDepth_of_isFlat fun ch hch =>
      StatementState.isFlat_of_isNamePart (hflat hq ch hch)
  have hgroup := Group.closed hfirst hpasses hlast hbraces
    (fun q hq => Int.le_of_eq (hgroups hq).symm) (hgroups List.prefix_rfl)
  rwa [hd] at hgroup

/-- A name inside a statement changes nothing. -/
theorem Name.runs_inside {name : String} (h : c.Name name d) (hs : s.hasCode = true) :
    s.Runs c s d [] := by
  have hall : s.countAll name.toList = s :=
    s.countAll_of_isFlat hs fun ch hch => StatementState.isFlat_of_isNamePart (h.part ch hch)
  have hruns := StatementState.runs_countAll h.passes hs fun p ch hp hch => by
    have hpart := h.part ch (hp.subset (by simp))
    rcases hch with rfl | rfl <;> simp [isNamePart] at hpart
  rwa [hall] at hruns

/-- A name is read up to where no name goes on. -/
theorem Name.exists_front {name : String} (h : c.Name name d) :
    ∃ ch after, name.toList.head? = some ch ∧ c.front .script = .code ch after ∧
      (after.eatWhile isNamePart).cursor = d := by
  obtain ⟨ch, hch, -⟩ := h.start
  obtain ⟨u, hu⟩ := List.head?_eq_some_iff.1 hch
  have hread := h.read
  have hpart := h.part
  rw [hu] at hread hpart
  obtain ⟨p, r⟩ := c
  obtain rfl : r = ch :: (u ++ d.rest) := hread.1
  have hkind := plain_of_isNamePart (hpart ch List.mem_cons_self) (u ++ d.rest)
  obtain ⟨after, hfront, hafter⟩ := front_eq_code hkind p
  refine ⟨ch, after, hch, hfront, ?_⟩
  have htake : (u ++ d.rest).takeWhile isNamePart = u := by
    rw [List.takeWhile_append_of_pos fun x hx => hpart x (List.mem_cons_of_mem ch hx)]
    cases hd : d.rest with
    | nil => simp
    | cons x rest => simp [h.whole x (by simp [hd])]
  have hdrop : (u ++ d.rest).dropWhile isNamePart = d.rest := by
    have hsplit := List.takeWhile_append_dropWhile (p := isNamePart) (l := u ++ d.rest)
    rw [htake] at hsplit
    exact List.append_cancel_left hsplit
  have hpast : (after.eatWhile isNamePart).cursor = after.cursor.eatWhile isNamePart := rfl
  rw [hpast, hafter, eatWhile, eatWhileFrom_eq, htake, hdrop, hread.eq_mk,
    Position.advanceOver_cons]

/-- A word at the start of a statement tells whether the statement wants a body. -/
theorem Name.runs_first {name : String} (h : c.Name name d) (hs : s.hasCode = false)
    (hstart : ∀ ch ∈ name.toList.head?, isWordStart ch) :
    s.Runs c { s with hasCode := true, awaitsBody := bodyKeywords.contains name } d [] := by
  obtain ⟨ch, after, hch, hfront, hpast⟩ := h.exists_front
  have hstep := StatementState.Step.word (s := s) hfront (hstart ch hch) hs
  rw [hpast, h.read.textTo_eq, String.ofList_toList] at hstep
  exact hstep.runs

/-- The name of what is declared only shows that the statement has code. -/
theorem Name.runs {name : String} (h : c.Name name d) (hnew : name ∉ bodyKeywords)
    (hidle : s.hasCode = false → s.awaitsBody = false) :
    s.Runs c { s with hasCode := true } d [] := by
  cases hs : s.hasCode with
  | true =>
    have hruns := h.runs_inside hs
    rwa [show { s with hasCode := true } = s by rw [← hs]]
  | false =>
    obtain ⟨ch, after, hch, hfront, -⟩ := h.exists_front
    obtain ⟨u, hu⟩ := List.head?_eq_some_iff.1 hch
    cases hstart : isWordStart ch with
    | true =>
      have hruns := h.runs_first hs (by simpa [hch] using hstart)
      have hcontains : bodyKeywords.contains name = s.awaitsBody := by simpa [hidle hs] using hnew
      rwa [hcontains] at hruns
    | false =>
      -- a name that begins with a dollar sign is read character by character
      have hpart := h.part
      rw [hu] at hpart
      have hflat := StatementState.isFlat_of_isNamePart (hpart ch List.mem_cons_self)
      have hsolid := isBlank_of_isNamePart (hpart ch List.mem_cons_self)
      have hsemi : ch ≠ ';' := by
        rintro rfl
        simp [isNamePart] at hpart
      have hstep := StatementState.Step.code (s := s) hfront hsolid (.inr hstart)
        fun h => absurd h hsemi
      rw [s.count_of_isFlat hflat] at hstep
      have hpasses := h.passes
      rw [hu] at hpasses
      cases hpasses with
      | region ahead => simp [hfront] at ahead
      | code ahead hmore =>
        rw [hfront] at ahead
        cases ahead
        have hmoreFlat : ∀ x ∈ u, isNamePart x := fun x hx => hpart x (List.mem_cons_of_mem ch hx)
        have hall := StatementState.countAll_of_isFlat { s with hasCode := true } rfl
          fun x hx => StatementState.isFlat_of_isNamePart (hmoreFlat x hx)
        have hruns := StatementState.runs_countAll (s := { s with hasCode := true }) hmore rfl
          fun p x hp hx => by
            have hx' := hmoreFlat x (hp.subset (by simp))
            rcases hx with rfl | rfl <;> simp [isNamePart] at hx'
        rw [hall] at hruns
        exact .step hstep hruns

/-- What stands in brackets is only counted, if the brackets stay open to its end. -/
theorem runs_enclosed {op cl : Char} {first : c.Later} {inner : List Char} {last : m.Later}
    (opens : c.front .script = .code op first) (inside : first.cursor.Passes .script inner m)
    (closes : m.front .script = .code cl last) (hop : op ∈ ['(', '{']) (hcl : cl ∈ [')', '}'])
    (hopen : ∀ p, p <+: inner → ((s.count op).countAll p).isTopLevel = false) :
    s.Runs c (((s.count op).countAll inner).count cl) last.cursor [] ∧
      ((s.count op).countAll inner).awaitsBody = (s.count op).awaitsBody := by
  have hquiet : ∀ p ch, p ++ [ch] <+: inner → ((s.count op).countAll p).isTopLevel = false :=
    fun p ch hp => hopen p ((List.prefix_append p [ch]).trans hp)
  refine ⟨?_, StatementState.awaitsBody_countAll hquiet⟩
  have hsolid : ∀ ch, ch ∈ ['(', '{'] ∨ ch ∈ [')', '}'] →
      isBlank ch = false ∧ isWordStart ch = false ∧ ch ≠ ';' := by
    simp only [List.mem_cons, List.not_mem_nil, or_false]
    rintro ch ((rfl | rfl) | (rfl | rfl)) <;> decide
  obtain ⟨hblank, hword, hsemi⟩ := hsolid op (.inl hop)
  obtain ⟨hblank', hword', hsemi'⟩ := hsolid cl (.inr hcl)
  have hfirst : s.Step c (s.count op) first.cursor [] :=
    .code opens hblank (.inr hword) fun h => absurd h hsemi
  have hinner := StatementState.runs_countAll inside (s.hasCode_count op)
    fun p ch hp _ => hquiet p ch hp
  have hlast : ((s.count op).countAll inner).Step m (((s.count op).countAll inner).count cl)
      last.cursor [] := .code closes hblank' (.inr hword') fun h => absurd h hsemi'
  exact .step hfirst (hinner.trans hlast.runs)

/-- Outside of brackets a group only shows that the statement has code. -/
theorem Group.runs (h : c.Group d) (hbraces : s.braces = 0) (hgroups : s.groups = 0) :
    s.Runs c { s with hasCode := true } d [] := by
  cases h with
  | @closed first inner m last opens inside closes braces sane settled =>
    have hfirst : s.count '(' = { s with hasCode := true, groups := 1 } := by
      simp [StatementState.count, hgroups]
    have hg : ∀ p, ((s.count '(').countAll p).groups = 1 + StatementState.groupDepth p := by
      intro p
      rw [StatementState.groups_countAll, hfirst]
    have hb : (((s.count '(').countAll inner).braces : Int) = 0 := by
      rw [StatementState.braces_countAll, hfirst, hbraces, braces.settled]
      · rfl
      · intro p hp
        simpa [hfirst, hbraces] using braces.sane p hp
    have hopen : ∀ p, p <+: inner → ((s.count '(').countAll p).isTopLevel = false := by
      intro p hp
      have hdepth := sane p hp
      simp only [StatementState.isTopLevel, Bool.and_eq_false_iff, decide_eq_false_iff_not, hg p]
      omega
    obtain ⟨hruns, ha⟩ := runs_enclosed opens inside closes (by simp) (by simp) hopen
    have hend : ((s.count '(').countAll inner).count ')' = { s with hasCode := true } := by
      have hg := hg inner
      rw [settled] at hg
      rw [hfirst] at hg hb ha ⊢
      generalize StatementState.countAll _ inner = t at hg hb ha ⊢
      simp [StatementState.count, hg, Int.natCast_eq_zero.1 hb, ha, hbraces, hgroups]
    rwa [hend] at hruns

/-- Behind a block outside of brackets the statement goes on, and waits for nothing. -/
theorem Block.runs (h : c.Block d) (hbraces : s.braces = 0) (hgroups : s.groups = 0) :
    ∃ t, s.Runs c t d [] ∧ t.hasCode = true ∧ t.awaitsBody = false := by
  cases h with
  | @closed first inner m last opens inside closes braces =>
    have hfirst : s.count '{' = { s with hasCode := true, braces := 1, awaitsBody := false } := by
      simp [StatementState.count, StatementState.isTopLevel, hbraces, hgroups]
    have hopen : ∀ p, p <+: inner → ((s.count '{').countAll p).isTopLevel = false := by
      intro p hp
      have hdepth := braces.sane p hp
      have hall : (((s.count '{').countAll p).braces : Int) = 1 + braceDepth p := by
        rw [StatementState.braces_countAll, hfirst]
        · rfl
        · intro q hq
          have := braces.sane q (hq.trans hp)
          rw [hfirst]
          push_cast
          omega
      simp only [StatementState.isTopLevel, Bool.and_eq_false_iff, decide_eq_false_iff_not]
      omega
    obtain ⟨hruns, ha⟩ := runs_enclosed opens inside closes (by simp) (by simp) hopen
    refine ⟨_, hruns, StatementState.hasCode_count _ _, ?_⟩
    rw [StatementState.awaitsBody_count, ha, hfirst]
    rfl

/-- A title at the start of a statement that wants a body makes it wait, if it stands on one
line. -/
theorem Title.runs_first (h : c.Title bodyKeywords n d) (hs : s.hasCode = false)
    (hlevel : s.isTopLevel) : ∃ cuts,
      s.Runs c { s with hasCode := true, awaitsBody := decide (n = 0) } d cuts ∧
      ∀ x ∈ cuts, x.StrictlyReaches d := by
  have hword : ∀ {word : String} {d : Cursor}, word ∈ bodyKeywords → c.Name word d →
      s.Runs c { s with hasCode := true, awaitsBody := true } d [] := by
    intro word d hlisted hreads
    have hstart : ∀ word ∈ bodyKeywords, word.toList.head?.all isWordStart := by decide
    have hruns := hreads.runs_first hs ((Option.all_eq_true _ _).1 (hstart word hlisted))
    rwa [List.contains_iff_mem.2 hlisted] at hruns
  cases h with
  | word listed reads => exact ⟨[], hword listed reads, by simp⟩
  | @named word name d m e n listed declares reads gap names isNew =>
    let t : StatementState := { s with hasCode := true, awaitsBody := true }
    obtain ⟨cuts, hgap, -⟩ := gap.runs (s := t) hlevel
    have hname := names.runs isNew (StatementState.awaitsBody_lines (s := t) rfl n)
    rw [StatementState.resume_lines rfl n] at hname
    refine ⟨_, (hword listed reads).trans (hgap.trans hname), fun x hx => ?_⟩
    simp only [List.nil_append, List.append_nil] at hx
    exact (hgap.reaches.2 x hx).2.trans_strictly names.strictlyReaches

/-- A title inside a statement changes nothing. -/
theorem Title.runs_inside (h : c.Title continuationKeywords n d) (hs : s.hasCode = true) :
    s.Runs c s d [] := by
  cases h with
  | word listed reads => exact reads.runs_inside hs
  | named listed declares =>
    have hnot : ∀ word ∈ continuationKeywords, word ∉ ["function", "class"] := by decide
    exact absurd declares (hnot _ listed)

/-- A group behind a title leaves a statement waiting that waited behind the title, if the two
stand on one line. -/
theorem Header.runs {words : List String} (h : c.Header words n e) (waits : Nat → Bool)
    (hbraces : s.braces = 0) (hgroups : s.groups = 0)
    (hwaits : ∀ n k, waits (n + k) = (waits n && k = 0))
    (htitle : ∀ {n d}, c.Title words n d → ∃ cuts,
      s.Runs c { s with hasCode := true, awaitsBody := waits n } d cuts ∧
      ∀ x ∈ cuts, x.StrictlyReaches d) :
    ∃ cuts, s.Runs c { s with hasCode := true, awaitsBody := waits n } e cuts ∧
      ∀ x ∈ cuts, x.StrictlyReaches e := by
  cases h with
  | bare title => exact htitle title
  | @grouped n k d m e title gap group =>
    obtain ⟨cuts, hruns, hcuts⟩ := htitle title
    have hlevel : s.isTopLevel := by simp [StatementState.isTopLevel, hbraces, hgroups]
    obtain ⟨more, hgap, -⟩ := gap.runs
      (s := { s with hasCode := true, awaitsBody := waits n }) hlevel
    obtain ⟨hb, hg⟩ := StatementState.sameBrackets_lines
      { s with hasCode := true, awaitsBody := waits n } k
    have hgroup := group.runs (hb.trans hbraces) (hg.trans hgroups)
    rw [StatementState.resume_lines rfl k] at hgroup
    rw [hwaits]
    refine ⟨_, hruns.trans (hgap.trans hgroup), fun x hx => ?_⟩
    have hbehind := gap.reaches.trans_strictly group.strictlyReaches
    rw [List.append_nil] at hx
    rcases List.mem_append.1 hx with hx | hx
    · exact (hcuts x hx).trans_reaches hbehind.reaches
    · exact (hgap.reaches.2 x hx).2.trans_strictly group.strictlyReaches

/-! ## Where headers stand -/

variable {doc g : Cursor}

/-- In the script that begins at `doc`, no bracket is open in front of `c`. -/
def AtDepthZero (doc c : Cursor) : Prop := ∃ code, doc.Passes .script code c ∧
  (StatementState.initial.countAll code).braces = 0 ∧
    (StatementState.initial.countAll code).groups = 0

/-- What lies ahead of `c` is the first code of a statement: only blanks and comments stand
between it and the start of the script or a cut. -/
structure Leads (doc c : Cursor) : Prop where
  level : doc.AtDepthZero c
  first : ∃ d n, (d = doc ∨ d ∈ statementCuts doc) ∧ d.Gap n c

/-- What lies ahead of `c` goes on with a statement behind one of its blocks. Where a line feed
stood between the two, the statement would end there. -/
structure Continues (doc c : Cursor) : Prop where
  behind : ∃ b d, doc.AtDepthZero b ∧ b.Block d ∧ doc.AtDepthZero d ∧ d.Gap 0 c

/-- Between `c` and `e` stands the header of a body, which spares a number of line feeds
before the body. -/
inductive IsHeader (doc c e : Cursor) : Nat → Prop where
  | leads {n : Nat} (leads : doc.Leads c) (header : c.Header bodyKeywords n e) :
      IsHeader doc c e (1 - n)
  | continues {n : Nat} (continues : doc.Continues c)
      (header : c.Header continuationKeywords n e) : IsHeader doc c e 0

/-- Something other than blanks and comments lies ahead. -/
structure Solid (c : Cursor) : Prop where
  ahead : ∃ ch ∈ c.rest.head?, isBlank ch = false
  code : GuardSet.script.kindAt c.rest = none ∨ GuardSet.script.kindAt c.rest = some .string

/-- The brackets that are open where a run comes by are those of the code in front. -/
theorem AtDepthZero.brackets (h : doc.AtDepthZero c) {cuts : List Cursor}
    (hruns : StatementState.initial.Runs doc s c cuts) : s.braces = 0 ∧ s.groups = 0 := by
  obtain ⟨code, hcode, hbraces, hgroups⟩ := h
  obtain ⟨code', hcode', hsame⟩ := hruns.passes
  obtain ⟨w, rfl, hw⟩ := hcode.onward hcode' (.refl c)
  have hnil : w = [] :=
    List.eq_nil_iff_forall_not_mem.2 fun ch hch => by simpa using hw.mem_of_mem (.refl c) hch
  rw [hnil, List.append_nil] at hsame
  exact ⟨hsame.1.trans hbraces, hsame.2.trans hgroups⟩

/-- All cuts of a script are found by one run. -/
theorem exists_run_statementCuts (doc : Cursor) : ∃ t d cuts,
    StatementState.initial.Runs doc t d cuts ∧ statementCuts doc = cuts.filter (!·.atEnd) ∧
      ∀ code e, d.Passes .script code e → e = d := by
  obtain ⟨t, d, cuts, hruns, hcuts, hstop⟩ := StatementState.exists_runs .initial doc
  refine ⟨t, d, cuts, hruns, ?_, hstop⟩
  rw [statementCuts, hcuts, List.append_nil, List.filter_reverse, List.reverse_reverse]

/-- The search comes by each cut of a script outside of brackets. -/
theorem exists_runs_of_mem_statementCuts (h : d ∈ statementCuts doc) : ∃ s cuts,
    StatementState.initial.Runs doc s d cuts ∧ s.isTopLevel ∧
      (s.hasCode = false ∨ d.rest.head? = some '\n' ∧ s.endsAtLine) := by
  obtain ⟨t, e, cuts, hruns, hcuts, -⟩ := exists_run_statementCuts doc
  rw [hcuts] at h
  exact hruns.exists_cut (List.mem_filter.1 h).1

/-- A cut that a run from the start of the script finds is a cut of the script, unless it
stands at its end. -/
theorem mem_statementCuts_of_runs {cuts : List Cursor}
    (h : StatementState.initial.Runs doc s c cuts) (hd : d ∈ cuts) (hmore : d.rest ≠ []) :
    d ∈ statementCuts doc := by
  obtain ⟨t, e, rest, -, hrest, -⟩ := StatementState.exists_runs s c
  have hend : (!d.atEnd) = true := by simpa [atEnd] using hmore
  rw [statementCuts, h.cutsFrom_eq, hrest, List.append_nil, List.mem_reverse, List.mem_filter]
  exact ⟨List.mem_append_right _ (List.mem_reverse.2 hd), hend⟩

/-- The search comes by the first code of a statement knowing that it is the first. -/
theorem Leads.exists_runs (h : doc.Leads c) (hc : c.rest.head? ≠ some '\n') : ∃ s cuts,
    StatementState.initial.Runs doc s c cuts ∧ s.hasCode = false ∧
      s.braces = 0 ∧ s.groups = 0 := by
  suffices ∃ s cuts, StatementState.initial.Runs doc s c cuts ∧ s.hasCode = false by
    obtain ⟨s, cuts, hruns, hcode⟩ := this
    exact ⟨s, cuts, hruns, hcode, h.level.brackets hruns⟩
  obtain ⟨d, n, hd, hgap⟩ := h.first
  -- behind the gap the statement has no code, whichever cut it begins at
  have hidle : ∀ {s : StatementState}, s.hasCode = false → s.lines n = s :=
    fun hs => if_neg (by simp [hs])
  rcases hd with rfl | hd
  · obtain ⟨cuts, hruns, -⟩ := hgap.runs (s := .initial) rfl
    rw [hidle rfl] at hruns
    exact ⟨_, _, hruns, rfl⟩
  · obtain ⟨s, found, hfound, hlevel, hends⟩ := exists_runs_of_mem_statementCuts hd
    obtain ⟨more, hmore, -⟩ := hgap.runs hlevel
    refine ⟨_, _, hfound.trans hmore, ?_⟩
    rcases hends with hcode | ⟨hline, hends⟩
    · rw [hidle hcode]
      exact hcode
    · -- the line feed at the cut is one of those in the gap
      have hn : 0 < n := by
        cases hgap with
        | refl => exact absurd hline hc
        | comment ahead comment =>
          obtain ⟨r, hr⟩ := List.head?_eq_some_iff.1 hline
          obtain ⟨p, text⟩ := d
          obtain rfl : text = '\n' :: r := hr
          obtain ⟨after, hfront, -⟩ := front_eq_code (plain_line r) p
          rw [ahead] at hfront
          cases hfront
        | @blank _ _ _ ch _ ahead blank inline =>
          rw [(front_code ahead).1] at hline
          exact absurd (Option.some.inj hline) inline
        | line => exact Nat.succ_pos _
      simp only [StatementState.endsAtLine, Bool.and_eq_true, Bool.not_eq_true'] at hends
      simp [StatementState.lines, hends, hn]

/-- The search comes by what goes on behind a block knowing that the statement waits for
nothing. -/
theorem Continues.exists_runs (h : doc.Continues c) : ∃ s cuts,
    StatementState.initial.Runs doc s c cuts ∧ s.hasCode = true ∧ s.awaitsBody = false ∧
      s.braces = 0 ∧ s.groups = 0 := by
  obtain ⟨b, d, hb, hblock, hd, hgap⟩ := h.behind
  obtain ⟨t, e, cuts, hruns, -, hstop⟩ := exists_run_statementCuts doc
  obtain ⟨code, hcode, -⟩ := id hb
  have hname : ∀ ch ∈ b.rest.head?, isNamePart ch = false := by
    cases hblock with
    | closed opens =>
      rw [(front_code opens).1]
      simp [isNamePart]
  obtain ⟨s, found, hfound⟩ := hruns.exists_at hstop hcode hname
  obtain ⟨hbraces, hgroups⟩ := hb.brackets hfound
  obtain ⟨u, hu, hhas, hwaits⟩ := hblock.runs hbraces hgroups
  have hbehind := hfound.trans hu
  obtain ⟨hbraces, hgroups⟩ := hd.brackets hbehind
  obtain ⟨more, hmore, -⟩ :=
    hgap.runs (s := u) (by simp [StatementState.isTopLevel, hbraces, hgroups])
  have hlines : u.lines 0 = u := if_neg (by simp)
  rw [hlines] at hmore
  exact ⟨u, _, hbehind.trans hmore, hhas, hwaits, hbraces, hgroups⟩

/-- A header begins with a name. -/
theorem Header.exists_name {words : List String} (h : c.Header words n e) :
    ∃ name m, c.Name name m ∧ m.Reaches e := by
  have htitle : ∀ {n d}, c.Title words n d → ∃ name m, c.Name name m ∧ m.Reaches d := by
    intro n d title
    cases title with
    | word listed reads => exact ⟨_, _, reads, .refl _⟩
    | named listed declares reads gap names =>
      exact ⟨_, _, reads, gap.reaches.trans names.strictlyReaches.reaches⟩
  cases h with
  | bare title => exact htitle title
  | grouped title gap group =>
    obtain ⟨name, m, hname, hreach⟩ := htitle title
    exact ⟨name, m, hname, hreach.trans (gap.reaches.trans group.strictlyReaches.reaches)⟩

/-- Behind a header the search has a statement that spares the line feeds that it should. The
cuts that it has found by then lie before the end of the header. -/
theorem IsHeader.exists_runs {spared : Nat} (h : doc.IsHeader c e spared) : ∃ s cuts,
    StatementState.initial.Runs doc s e cuts ∧ s.hasCode = true ∧ s.isTopLevel ∧
      s.spared = spared ∧ ∀ x ∈ cuts, x.StrictlyReaches e := by
  cases h with
  | @leads n leads header =>
    obtain ⟨name, m, hname, hreach⟩ := header.exists_name
    obtain ⟨s, cuts, hruns, hcode, hbraces, hgroups⟩ := leads.exists_runs hname.head?_ne_line
    have hlevel : s.isTopLevel := by simp [StatementState.isTopLevel, hbraces, hgroups]
    obtain ⟨more, hmore, hbefore⟩ := header.runs (fun n => decide (n = 0)) hbraces hgroups
      (fun n k => by simp) fun title => title.runs_first hcode hlevel
    refine ⟨_, _, hruns.trans hmore, rfl, hlevel, ?_, fun x hx => ?_⟩
    · cases n <;> simp [StatementState.spared]
    · rcases List.mem_append.1 hx with hx | hx
      · exact ((hruns.reaches.2 x hx).2.trans_strictly hname.strictlyReaches).trans_reaches hreach
      · exact hbefore x hx
  | @continues n continues header =>
    obtain ⟨name, m, hname, hreach⟩ := header.exists_name
    obtain ⟨s, cuts, hruns, hcode, hwaits, hbraces, hgroups⟩ := continues.exists_runs
    have hlevel : s.isTopLevel := by simp [StatementState.isTopLevel, hbraces, hgroups]
    have hkeep : { s with hasCode := true, awaitsBody := false } = s := by rw [← hcode, ← hwaits]
    obtain ⟨more, hmore, hbefore⟩ := header.runs (fun _ => false) hbraces hgroups
      (fun n k => rfl) fun title => ⟨[], hkeep.symm ▸ title.runs_inside hcode, by simp⟩
    refine ⟨_, _, hruns.trans hmore, rfl, hlevel, rfl, fun x hx => ?_⟩
    rcases List.mem_append.1 hx with hx | hx
    · exact ((hruns.reaches.2 x hx).2.trans_strictly hname.strictlyReaches).trans_reaches hreach
    · exact hbefore x hx

/-- Between a header and its body the script is cut exactly if more line feeds stand there
than the header spares: one, if it stands on one line at the start of a statement, and else
none. -/
theorem IsHeader.cut_iff {spared : Nat} (h : doc.IsHeader c e spared) (hgap : e.Gap n g)
    (hbody : g.Solid) :
    (∃ d ∈ statementCuts doc, e.Reaches d ∧ d.Reaches g) ↔ spared < n := by
  obtain ⟨s, cuts, hruns, hcode, hlevel, hspared, hbefore⟩ := h.exists_runs
  obtain ⟨more, hmore, hmoreIff⟩ := hgap.runs hlevel
  obtain ⟨t, d, rest, hrest, hcuts, -⟩ := StatementState.exists_runs (s.lines n) g
  rw [hspared] at hmoreIff
  have hall : statementCuts doc = (cuts ++ more ++ rest).filter (!·.atEnd) := by
    rw [statementCuts, hruns.cutsFrom_eq, hmore.cutsFrom_eq, hcuts]
    simp [List.filter_reverse]
  obtain ⟨ch, hch, hsolid⟩ := hbody.ahead
  have hline : g.rest.head? ≠ some '\n' := by
    rw [hch]
    rintro ⟨⟩
    simp [isBlank] at hsolid
  rw [hall]
  constructor
  · rintro ⟨x, hx, hex, hxg⟩
    rcases List.mem_append.1 (List.mem_filter.1 hx).1 with hx | hx
    · rcases List.mem_append.1 hx with hx | hx
      · have := (hbefore x hx).offset_lt
        have := hex.offset_le
        omega
      · exact (hmoreIff.1 (List.ne_nil_of_mem hx)).2
    · have := (hrest.strictlyReaches hline x hx).offset_lt
      have := hxg.offset_le
      omega
  · intro hn
    obtain ⟨x, hx⟩ := List.exists_mem_of_ne_nil more (hmoreIff.2 ⟨hcode, hn⟩)
    obtain ⟨hex, hxg⟩ := hmore.reaches.2 x hx
    refine ⟨x, List.mem_filter.2 ⟨by simp [hx], ?_⟩, hex, hxg⟩
    -- some text lies ahead of the cut, since it does behind the gap
    obtain ⟨u, hu⟩ := hxg
    obtain ⟨r, hr⟩ := List.head?_eq_some_iff.1 hch
    simp [atEnd, hu.1, hr]

/-- A header on one line and an empty line behind it: the script is cut in front of the body. -/
theorem cut_iff_empty_line :
    let doc : Cursor := ⟨.start, "if (a)\n\nb()".toList⟩
    let e : Cursor := ⟨⟨6, 1, 7⟩, "\n\nb()".toList⟩
    let g : Cursor := ⟨⟨8, 3, 1⟩, "b()".toList⟩
    doc.IsHeader doc e 1 ∧ e.Gap 2 g ∧ g.Solid ∧
      ((∃ d ∈ statementCuts doc, e.Reaches d ∧ d.Reaches g) ↔ 1 < 2) := by
  intro doc e g
  let m : Cursor := ⟨⟨3, 1, 4⟩, "(a)\n\nb()".toList⟩
  have hname : doc.Name "if" ⟨⟨2, 1, 3⟩, " (a)\n\nb()".toList⟩ :=
    ⟨⟨rfl, rfl⟩, ⟨'i', rfl, by decide⟩, List.all_eq_true.1 (by decide), by rintro _ ⟨⟩; rfl⟩
  have hblank : Gap ⟨⟨2, 1, 3⟩, " (a)\n\nb()".toList⟩ 0 m :=
    Consumes.gap (u := [' ']) ⟨rfl, rfl⟩ (List.all_eq_true.1 (by decide))
  have hgroup : m.Group e :=
    Consumes.group (u := ['a']) ⟨rfl, rfl⟩ (List.all_eq_true.1 (by decide))
  have hheader : doc.IsHeader doc e 1 :=
    .leads ⟨⟨[], .refl doc, rfl, rfl⟩, doc, 0, .inl rfl, .refl doc⟩
      (.grouped (.word (by decide) hname) hblank hgroup)
  have hgap : e.Gap 2 g :=
    Consumes.gap (u := ['\n', '\n']) ⟨rfl, rfl⟩ (List.all_eq_true.1 (by decide))
  have hbody : g.Solid := ⟨⟨'b', rfl, rfl⟩, .inl rfl⟩
  exact ⟨hheader, hgap, hbody, hheader.cut_iff hgap hbody⟩

end Cursor

end Polyglot
