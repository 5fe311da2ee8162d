-- SUMMARY: One pass over the boundaries between fragments settles all of them.
import Polyglot.Proofs.Cut
import Polyglot.Proofs.Neighbour
import Polyglot.Proofs.Window

/-!
# Settled boundaries

A boundary is decided before the fragment behind it has taken in what follows, so a boundary
that was kept may stand in front of a longer fragment in the end. It would be kept there too.
Only statements of one script are joined, and a statement has code and stops at a `Seam`, behind
a semicolon or in front of a line feed. What comes behind a seam completes no token in front
of it, so a head that begins no continuation still begins none when it grows
(`beginsWithContinuation_append_of_seam`).
-/

namespace Polyglot

/-! ## Seams -/

/-- One text may stop and the other go on between two statements. -/
def Seam (before after : List Char) : Prop := AtLineEnd after ∨ before.getLast? = some ';'

/-- There is more in the text than comments and blanks. -/
def HasCode (text : List Char) : Prop := afterTrivia .script ⟨.start, text⟩ ≠ []

variable {text left more : List Char}

theorem AtLineEnd.of_prefix (h : AtLineEnd text) (hle : left <+: text) : AtLineEnd left := by
  refine h.standsIn ?_
  cases left with
  | nil => exact .inl rfl
  | cons ch left =>
    obtain ⟨rest, rfl⟩ := hle
    exact .inr rfl

theorem Seam.of_prefix (h : Seam text more) (hle : left <+: more) : Seam text left :=
  h.imp_left fun hline => hline.of_prefix hle

/-- Only the end of the text in front of a seam counts. -/
theorem seam_of_suffix (hne : left ≠ []) (hle : left <:+ text) :
    Seam left more ↔ Seam text more := by
  obtain ⟨before, rfl⟩ := hle
  rw [Seam, Seam, List.getLast?_append_of_ne_nil before hne]

theorem afterTrivia_suffix {set : GuardSet} (c : Cursor) : afterTrivia set c <:+ c.rest := by
  have hlater : ∀ {c : Cursor} (after : c.Later), after.cursor.rest <:+ c.rest := by
    intro c after
    obtain ⟨u, hu⟩ := after.reaches
    exact ⟨u, hu.1.symm⟩
  fun_induction afterTrivia set c with
  | case1 | case2 | case4 | case7 => exact List.suffix_rfl
  | case3 => exact List.nil_suffix
  | case5 c kind after comment ahead ih => exact ih.trans (hlater after)
  | case6 c ch after ahead blank ih => exact ih.trans (hlater after)

theorem HasCode.ne_nil (h : HasCode text) : text ≠ [] := by
  rintro rfl
  exact h (afterTrivia_nil .start)

/-- A string ends the trivia, complete or not. -/
theorem afterTrivia_string {set : GuardSet} {c : Cursor} (h : set.kindAt c.rest = some .string) :
    afterTrivia set c = c.rest := by
  rw [afterTrivia]
  cases ahead : c.front set with
  | finish => rfl
  | region kind after =>
    obtain ⟨u, hregion, hu, -⟩ := Cursor.front_eq_region ahead
    cases hregion with
    | string => rfl
    | lineComment code | blockComment code | generatorComment code =>
      rw [hu.1, List.cons_append, GuardSet.kindAt_string_iff] at h
      exact absurd h code
  | openRegion issue atEnd =>
    rw [Cursor.front_openRegion_eq ahead]
    simp [h]
  | code ch after =>
    rw [Cursor.kindAt_of_front_code ahead] at h
    cases h

/-- Behind a seam nothing belongs to the code in front of it. -/
theorem kindAt_append_of_seam {ch : Char} {rest : List Char} (hseam : Seam (ch :: rest) more)
    (h : GuardSet.script.kindAt (ch :: rest) = none) :
    GuardSet.script.kindAt (ch :: (rest ++ more)) = none := by
  cases hkind : GuardSet.script.kindAt (ch :: (rest ++ more)) with
  | none => rfl
  | some kind =>
    exfalso
    obtain rfl : rest = [] := eq_nil_of_kindAt h hkind
    rcases hseam with hline | hsemi
    · -- no comment opens with a line feed for its second character
      cases more with
      | nil => simp [h] at hkind
      | cons x more =>
        obtain rfl : x = '\n' := by simpa [AtLineEnd] using hline
        cases kind with
        | string =>
          rw [GuardSet.kindAt_string_iff.2 (GuardSet.kindAt_string_iff.1 hkind)] at h
          cases h
        | lineComment => simpa using (GuardSet.kindAt_lineComment_iff.1 hkind).2.2.2
        | blockComment => simpa using (GuardSet.kindAt_blockComment_iff.1 hkind).2.2.2
        | generatorComment =>
          exact absurd (GuardSet.kindAt_generatorComment_iff.1 hkind).2.1 (by decide)
    · obtain rfl : ch = ';' := by simpa using hsemi
      rw [GuardSet.plain_of (by decide) (by decide) (.inr rfl)] at hkind
      cases hkind

/-- A text that has code goes on behind a seam without a change to where its code begins. -/
theorem HasCode.afterTrivia_append (h : HasCode text) (hseam : Seam text more) :
    afterTrivia .script ⟨.start, text ++ more⟩ = afterTrivia .script ⟨.start, text⟩ ++ more := by
  rw [Polyglot.afterTrivia_append h more .start .start]
  have hsolid := solid_afterTrivia h
  have hseam' : Seam (afterTrivia .script ⟨.start, text⟩) more :=
    (seam_of_suffix h (afterTrivia_suffix _)).2 hseam
  generalize afterTrivia .script ⟨.start, text⟩ = left at hsolid hseam'
  obtain ⟨hcode, ch, hch, hblank⟩ | hstring := hsolid
  · obtain ⟨rest, rfl⟩ := List.head?_eq_some_iff.1 hch
    obtain ⟨after, ahead, -⟩ :=
      Cursor.front_eq_code (kindAt_append_of_seam hseam' hcode) .start
    exact afterTrivia_code ahead hblank
  · refine afterTrivia_string ?_
    cases left with
    | nil => cases hstring
    | cons ch rest => exact GuardSet.kindAt_string_iff.2 (GuardSet.kindAt_string_iff.1 hstring)

theorem HasCode.append (h : HasCode text) (hseam : Seam text more) : HasCode (text ++ more) := by
  rw [HasCode, h.afterTrivia_append hseam]
  exact List.append_ne_nil_of_left_ne_nil h more

/-! ## What a head begins with -/

/-- The first character of an operator that is listed is listed. -/
theorem leading_append (hleft : left ≠ [])
    (h : leadingContinuations.any (·.toList.isPrefixOf left) = false) (more : List Char) :
    leadingContinuations.any (·.toList.isPrefixOf (left ++ more)) = false := by
  have hfirst : ∀ op ∈ leadingContinuations, ∃ one ∈ leadingContinuations,
      one.toList = op.toList.take 1 := by decide
  rw [List.any_eq_false] at h ⊢
  intro op hop hprefix
  obtain ⟨one, hone, htake⟩ := hfirst op hop
  refine h one hone (List.isPrefixOf_iff_prefix.2 ?_)
  have hlong : one.toList <+: left ++ more := by
    rw [htake]
    exact (List.take_prefix 1 op.toList).trans (List.isPrefixOf_iff_prefix.1 hprefix)
  refine List.prefix_of_prefix_length_le hlong (List.prefix_append left more) ?_
  rw [htake]
  exact (List.length_take_le 1 _).trans (List.length_pos_iff.2 hleft)

/-- A keyword does not reach over a seam. -/
theorem beginsWithWord_of_seam {word : String} (hword : word ∈ continuationKeywords)
    (hleft : left ≠ []) (hseam : Seam left more) (h : beginsWithWord word (left ++ more)) :
    beginsWithWord word left := by
  have hletters : ∀ word ∈ continuationKeywords, '\n' ∉ word.toList ∧ ';' ∉ word.toList := by
    decide
  obtain ⟨hline, hsemi⟩ := hletters word hword
  simp only [beginsWithWord, Bool.and_eq_true, List.isPrefixOf_iff_prefix] at h ⊢
  obtain ⟨hstarts, halone⟩ := h
  rcases List.prefix_or_prefix_of_prefix hstarts (List.prefix_append left more) with hshort | hlong
  · obtain ⟨rest, rfl⟩ := hshort
    refine ⟨List.prefix_append .., ?_⟩
    rw [List.append_assoc] at halone
    rw [← String.length_toList, List.drop_left] at halone ⊢
    cases rest with
    | nil => rfl
    | cons ch rest => exact halone
  · -- the keyword goes on behind the seam, or ends there
    obtain ⟨behind, hbehind⟩ := hlong
    rw [← hbehind] at hstarts
    have hmore : behind <+: more := (List.prefix_append_right_inj left).1 hstarts
    cases behind with
    | nil =>
      rw [List.append_nil] at hbehind
      subst hbehind
      refine ⟨List.prefix_rfl, ?_⟩
      rw [← String.length_toList, List.drop_length]
      rfl
    | cons ch behind =>
      exfalso
      rcases hseam with hend | hend
      · have hch := hend.of_prefix hmore
        obtain rfl : ch = '\n' := by simpa [AtLineEnd] using hch
        exact hline (by rw [← hbehind]; simp)
      · exact hsemi (by rw [← hbehind]; exact List.mem_append_left _ (List.mem_of_getLast? hend))

/-- Where a text begins no continuation, it still begins none if it goes on behind a seam. -/
theorem isContinuation_of_seam (hleft : left ≠ []) (hseam : Seam left more)
    (h : isContinuation left = false) : isContinuation (left ++ more) = false := by
  simp only [isContinuation, Bool.and_eq_false_iff, Bool.not_eq_false', Bool.or_eq_false_iff] at h ⊢
  rcases h with hstep | ⟨hleading, hword⟩
  · obtain ⟨op, hop, hprefix⟩ := List.any_eq_true.1 hstep
    exact .inl (List.any_eq_true.2 ⟨op, hop, isPrefixOf_append hprefix more⟩)
  · refine .inr ⟨leading_append hleft hleading more, ?_⟩
    rw [List.any_eq_false] at hword ⊢
    exact fun word hlisted h => hword word hlisted (beginsWithWord_of_seam hlisted hleft hseam h)

theorem beginsWithContinuation_append_of_seam (hcode : HasCode text) (hseam : Seam text more)
    (h : beginsWithContinuation .script text = false) :
    beginsWithContinuation .script (text ++ more) = false := by
  rw [beginsWithContinuation_eq] at h ⊢
  rw [hcode.afterTrivia_append hseam]
  exact isContinuation_of_seam hcode ((seam_of_suffix hcode (afterTrivia_suffix _)).2 hseam) h

/-- A window that does not show the whole text shows no more of a longer one. -/
theorem takeBytes_append (n : Nat) (text more : List Char) :
    takeBytes n (text ++ more) = takeBytes n text ∨
      takeBytes n text = text ∧ ∃ m, takeBytes n (text ++ more) = text ++ takeBytes m more := by
  induction text generalizing n with
  | nil => exact .inr ⟨rfl, n, rfl⟩
  | cons ch text ih =>
    rw [List.cons_append, takeBytes_cons, takeBytes_cons]
    by_cases hfits : ch.utf8Size ≤ n
    · rw [if_pos hfits, if_pos hfits]
      refine (ih (n - ch.utf8Size)).imp (fun h => by rw [h]) fun ⟨hwhole, m, hm⟩ => ?_
      exact ⟨by rw [hwhole], m, by rw [hm, List.cons_append]⟩
    · rw [if_neg hfits, if_neg hfits]
      exact .inl rfl

/-- The same holds of what a window shows of the text. -/
theorem beginsWithContinuation_takeBytes_append (hcode : HasCode text) (hseam : Seam text more)
    {window : Nat} (h : beginsWithContinuation .script (takeBytes window text) = false) :
    beginsWithContinuation .script (takeBytes window (text ++ more)) = false := by
  obtain hsame | ⟨hwhole, m, hm⟩ := takeBytes_append window text more
  · rwa [hsame]
  · rw [hwhole] at h
    rw [hm]
    have hfits := Fragment.takeBytes_prefix m more
    exact beginsWithContinuation_append_of_seam hcode (hseam.of_prefix hfits) h

/-! ## Statements -/

/-- Between the two cursors stands a statement: it has code and stops at a seam. -/
def Cursor.HoldsStatement (b x : Cursor) : Prop :=
  ∃ text, b.Consumes text x ∧ HasCode text ∧ Seam text x.rest

theorem Cursor.Consumes.prefix_rest {c x : Cursor} (h : c.Consumes text x) : text <+: c.rest :=
  ⟨x.rest, h.1.symm⟩

namespace StatementState

variable {s t u : StatementState} {b c d e x : Cursor} {w v : List Char}

/-- What the search for cuts knows at `c` of the text since `b`, however much of what comes
next belongs to it: that there is code, or that nothing but trivia was read. -/
structure Since (b : Cursor) (s : StatementState) (c : Cursor) : Prop where
  reaches : b.Reaches c
  code : s.hasCode = true → ∀ {x w}, c.Reaches x → b.Consumes w x → HasCode w
  trivia : s.hasCode = false → ∀ {x w v}, b.Consumes w x → c.Consumes v x →
    afterTrivia .script ⟨.start, w⟩ = afterTrivia .script ⟨.start, v⟩

/-- A statement begins here. -/
theorem since_refl (c : Cursor) (hs : s.hasCode = false) : Since c s c where
  reaches := .refl c
  code h := absurd h (by simp [hs])
  trivia _ _ _ _ hw hv := by rw [hw.unique hv]

/-- The search reads code. -/
theorem Since.read (h : Since b s c) (hcd : c.Reaches d) (ht : t.hasCode = true)
    (hcode : ∀ {x w}, d.Reaches x → c.Consumes w x → HasCode w) : Since b t d where
  reaches := h.reaches.trans hcd
  code _ x w hx hw := by
    cases hs : s.hasCode with
    | true => exact h.code hs (hcd.trans hx) hw
    | false =>
      obtain ⟨v, hv⟩ := hcd.trans hx
      rw [HasCode, h.trivia hs hw hv]
      exact hcode hx hv
  trivia hnone := absurd hnone (by simp [ht])

/-- The search passes over trivia. -/
theorem Since.pass (h : Since b s c) (hcd : c.Reaches d) (ht : t.hasCode = s.hasCode)
    (hsame : ∀ {x w v}, c.Consumes w x → d.Consumes v x →
      afterTrivia .script ⟨.start, w⟩ = afterTrivia .script ⟨.start, v⟩) : Since b t d where
  reaches := h.reaches.trans hcd
  code hs x w hx hw := h.code (ht ▸ hs) (hcd.trans hx) hw
  trivia hs x w v hw hv := by
    obtain ⟨u, hu⟩ := hcd
    exact (h.trivia (ht ▸ hs) hw (hu.trans hv)).trans (hsame (hu.trans hv) hv)

/-- What is read ahead of a cursor begins as the text that lies ahead. -/
theorem standsIn_of_consumes (h : c.Consumes w x) : StandsIn w c.rest := by
  cases w with
  | nil => exact .inl rfl
  | cons ch w => exact .inr (by rw [h.1]; rfl)

/-- A comment or a string that lies ahead does so in every part of the text that holds it. -/
theorem exists_front_region {kind : GuardKind} {after : c.Later}
    (ahead : c.front .script = .region kind after) (hw : c.Consumes w x)
    (hv : after.cursor.Consumes v x) :
    ∃ after', Cursor.front .script ⟨.start, w⟩ = .region kind after' ∧ after'.cursor.rest = v := by
  obtain ⟨u, hregion, hu, hline⟩ := Cursor.front_eq_region ahead
  obtain rfl : w = u ++ v := hw.unique (hu.trans hv)
  have hends : kind.isLine → AtLineEnd v := fun h => (hline h).standsIn (standsIn_of_consumes hv)
  obtain ⟨after', ahead', hafter⟩ := Cursor.front_of_isRegion hregion hends .start
  exact ⟨after', ahead', by rw [hafter]⟩

/-- So does a character of code. -/
theorem exists_front_code {ch : Char} {after : c.Later}
    (ahead : c.front .script = .code ch after) (hw : c.Consumes w x)
    (hv : after.cursor.Consumes v x) :
    ∃ after', Cursor.front .script ⟨.start, w⟩ = .code ch after' ∧ after'.cursor.rest = v := by
  have hread : c.Consumes [ch] after.cursor := Cursor.front_code ahead
  obtain rfl : w = ch :: v := hw.unique (hread.trans hv)
  have hkind : GuardSet.script.kindAt (ch :: v) = none :=
    GuardSet.kindAt_eq_none_of_standsIn rfl
      ((Cursor.front_code ahead).1 ▸ Cursor.kindAt_of_front_code ahead) (standsIn_of_consumes hv)
  obtain ⟨after', ahead', hafter⟩ := Cursor.front_eq_code hkind .start
  exact ⟨after', ahead', by rw [hafter]⟩

theorem hasCode_of_code {ch : Char} {after : c.Later} (ahead : c.front .script = .code ch after)
    (solid : isBlank ch = false) (hx : after.cursor.Reaches x) (hw : c.Consumes w x) :
    HasCode w := by
  obtain ⟨v, hv⟩ := hx
  obtain ⟨after', ahead', -⟩ := exists_front_code ahead hw hv
  rw [HasCode, afterTrivia_code ahead' solid, (Cursor.front_code ahead').1]
  exact List.cons_ne_nil ch _

theorem hasCode_of_string {after : c.Later} (ahead : c.front .script = .region .string after)
    (hx : after.cursor.Reaches x) (hw : c.Consumes w x) : HasCode w := by
  obtain ⟨v, hv⟩ := hx
  obtain ⟨after', ahead', -⟩ := exists_front_region ahead hw hv
  have hw : w ≠ [] := by
    rintro rfl
    cases ahead'
  rw [HasCode, afterTrivia, ahead']
  exact hw

theorem afterTrivia_of_comment {kind : GuardKind} {after : c.Later}
    (ahead : c.front .script = .region kind after) (comment : kind ≠ .string)
    (hw : c.Consumes w x) (hv : after.cursor.Consumes v x) :
    afterTrivia .script ⟨.start, w⟩ = afterTrivia .script ⟨.start, v⟩ := by
  obtain ⟨after', ahead', hrest⟩ := exists_front_region ahead hw hv
  rw [afterTrivia_comment ahead' comment]
  exact afterTrivia_of_rest hrest

theorem afterTrivia_of_blank {ch : Char} {after : c.Later}
    (ahead : c.front .script = .code ch after) (blank : isBlank ch)
    (hw : c.Consumes w x) (hv : after.cursor.Consumes v x) :
    afterTrivia .script ⟨.start, w⟩ = afterTrivia .script ⟨.start, v⟩ := by
  obtain ⟨after', ahead', hrest⟩ := exists_front_code ahead hw hv
  rw [afterTrivia_blank ahead' blank]
  exact afterTrivia_of_rest hrest

/-- A step of the search goes on with the statement, or cuts behind it and begins the next. -/
theorem Since.step {found : List Cursor} (h : Since b s c) (hstep : Step s c t d found) :
    found = [] ∧ Since b t d ∨ ∃ x, found = [x] ∧ b.HoldsStatement x ∧ Since x t d := by
  have hcd := hstep.reaches.1.reaches
  cases hstep with
  | string ahead => exact .inl ⟨rfl, h.read hcd rfl (hasCode_of_string ahead)⟩
  | comment ahead comment => exact .inl ⟨rfl, h.pass hcd rfl (afterTrivia_of_comment ahead comment)⟩
  | @line after ahead level =>
    have hblank : ∀ {x w v}, c.Consumes w x → after.cursor.Consumes v x →
        afterTrivia .script ⟨.start, w⟩ = afterTrivia .script ⟨.start, v⟩ :=
      afterTrivia_of_blank ahead rfl
    cases hends : s.endsAtLine with
    | false =>
      have hkeeps : s.line.hasCode = s.hasCode := by
        obtain ⟨braces, groups, hasCode, awaitsBody⟩ := s
        cases hasCode <;> cases awaitsBody <;> simp_all [line, endsAtLine]
      exact .inl ⟨rfl, h.pass hcd hkeeps hblank⟩
    | true =>
      obtain ⟨hcode, hbody⟩ : s.hasCode = true ∧ s.awaitsBody = false := by
        simpa [endsAtLine] using hends
      have hfresh : s.line.hasCode = false := by simp [line, hcode, hbody, fresh]
      obtain ⟨text, htext⟩ := h.reaches
      refine .inr ⟨c, rfl, ⟨text, htext, h.code hcode (.refl c) htext, .inl ?_⟩, ?_⟩
      · rw [(Cursor.front_code ahead).1]
        rfl
      · exact (since_refl c hfresh).pass hcd rfl hblank
  | blank ahead blank inside => exact .inl ⟨rfl, h.pass hcd rfl (afterTrivia_of_blank ahead blank)⟩
  | @word ch after ahead start first =>
    have solid := isBlank_of_isNamePart (isNamePart_of_isWordStart start)
    exact .inl ⟨rfl, h.read hcd rfl fun hx =>
      hasCode_of_code ahead solid ((after.cursor.reaches_eatWhile isNamePart).trans hx)⟩
  | @code ch after ahead solid notFirst goesOn =>
    exact .inl ⟨rfl, h.read hcd (hasCode_count s ch) (hasCode_of_code ahead solid)⟩
  | @semicolon after ahead level =>
    have hcount : Since b (s.count ';') after.cursor :=
      h.read hcd (hasCode_count s ';') (hasCode_of_code ahead rfl)
    obtain ⟨text, htext⟩ := h.reaches
    have hstop : b.Consumes (text ++ [';']) after.cursor := htext.trans (Cursor.front_code ahead)
    refine .inr ⟨after.cursor, rfl, ⟨_, hstop, ?_, .inr (by simp)⟩, since_refl _ rfl⟩
    exact hcount.code (hasCode_count s ';') (.refl _) hstop

/-- Between the cuts that a run finds stand statements. -/
theorem Since.runs {cuts : List Cursor} (h : Since b s c) (hruns : Runs s c t d cuts) :
    (b :: cuts).IsChain Cursor.HoldsStatement := by
  induction hruns generalizing b with
  | refl => exact .singleton b
  | step first more ih =>
    obtain ⟨rfl, hmore⟩ | ⟨x, rfl, hholds, hmore⟩ := h.step first
    · exact ih hmore
    · exact .cons_cons hholds (ih hmore)

end StatementState

/-- Between the cuts of a script stand statements. -/
theorem isChain_statementCuts (c : Cursor) :
    (c :: statementCuts c).IsChain Cursor.HoldsStatement := by
  obtain ⟨t, d, cuts, hruns, hcuts, -⟩ := StatementState.exists_runs .initial c
  have hchain := (StatementState.since_refl c rfl).runs hruns
  have heq : statementCuts c = cuts.filter (!·.atEnd) := by
    rw [statementCuts, hcuts, List.append_nil, List.filter_reverse, List.reverse_reverse]
  rw [heq]
  clear hruns hcuts heq
  -- only the last cut may stand at the end
  induction cuts generalizing c with
  | nil => exact hchain
  | cons x cuts ih =>
    rw [List.isChain_cons_cons] at hchain
    cases hend : x.atEnd with
    | false =>
      rw [List.filter_cons_of_pos (by simp [hend])]
      exact .cons_cons hchain.1 (ih x hchain.2)
    | true =>
      have hlast : cuts = [] := by
        cases cuts with
        | nil => rfl
        | cons y cuts =>
          obtain ⟨text, htext, hcode, -⟩ := (List.isChain_cons_cons.1 hchain.2).1
          have hnil : x.rest = [] := List.isEmpty_iff.1 hend
          exact absurd (List.append_eq_nil_iff.1 (htext.1.symm.trans hnil)).1 hcode.ne_nil
      simp [hlast, hend]

namespace Fragment

variable {window : Nat} {f g h : Fragment} {fs done : List Fragment}

/-! ## Joints -/

instance : Trans Cursor.Reaches Cursor.Reaches Cursor.Reaches := ⟨Cursor.Reaches.trans⟩

/-- The fragments are a statement of a script and what comes next in the script. -/
structure Joint (f g : Fragment) : Prop where
  context : g.context = .scriptLocal
  code : HasCode f.content
  seam : Seam f.content g.content

/-- The statements of a script are joined to each other as statements. -/
theorem isChain_statements {u : Fragment} (hu : u.context = .scriptLocal) :
    u.statements.IsChain Joint := by
  have hcuts := isChain_statementCuts u.cursor
  unfold statements
  generalize u.cursor = c, statementCuts u.cursor = cuts at hcuts
  induction cuts generalizing c with
  | nil =>
    have hone : c.stretches [] = [(c, c.toEnd)] := rfl
    rw [hone]
    cases hpart : u.part? c c.toEnd with
    | none => simp [hpart]
    | some f => simp [hpart]
  | cons x cuts ih =>
    obtain ⟨⟨text, htext, hcode, hseam⟩, hmore⟩ := List.isChain_cons_cons.1 hcuts
    have horder : (x :: cuts).IsChain Cursor.Reaches := by
      refine hmore.imp ?_
      rintro a b ⟨w, hw, -⟩
      exact ⟨w, hw⟩
    have htiles : Tiles (fun _ => True) x _ _ :=
      tiles_stretches u horder.pairwise (fun _ _ => trivial) trivial
    have hpart := part?_text (u := u) htext hcode.ne_nil
    rw [Cursor.stretches_cons ⟨text, htext⟩]
    simp only [List.filterMap_cons, hpart]
    refine List.isChain_cons.2 ⟨fun g hg => ?_, ih x hmore⟩
    obtain ⟨fs, hfs⟩ := List.head?_eq_some_iff.1 hg
    have hcontext : g.context = .scriptLocal := by
      obtain ⟨⟨a, b⟩, -, hg⟩ := List.mem_filterMap.1 (List.mem_of_mem_head? hg)
      exact (congrArg Frame.context (Scan.kin_part? hg).1).symm.trans hu
    rw [hfs] at htiles
    cases htiles with
    | cons covers => exact ⟨hcontext, hcode, hseam.of_prefix covers.read.prefix_rest⟩

/-- Neighbours that may be joined are statements. -/
def Abuts (f g : Fragment) : Prop := f.precedes g → f.Joint g

/-- What the structural pass leaves side by side in one scope and context are statements. -/
theorem isChain_abuts (options : Options) (text : List Char) :
    (Scan.outline options text).fragments.IsChain Abuts := by
  have hpieces := (Outline.mirrors_ofText options text (Scan.encodingRemarks text .empty)).emitted
  have hapart : ∀ f g : Fragment, f.Apart g → f.Abuts g := fun f g hfg hnext => by
    rw [precedes_of_apart hfg] at hnext
    cases hnext
  have hchain : ((Scan.outline options text).fragments.map unnumbered).IsChain Abuts := by
    rw [Scan.outline, hpieces]
    refine isChain_flatMap (Scan.blocks_apart options text) (Scan.blocks_division options text)
      (fun u hu => ?_) hapart
    by_cases hcut : u.context = .scriptLocal ∧ options.splitStatements
    · have hstatements : u.pieces options = u.statements := if_pos (by simpa using hcut)
      rw [hstatements]
      exact (isChain_statements hcut.1).imp fun f g hfg _ => hfg
    · rw [Outline.pieces_of_not hcut]
      exact .singleton _
  rw [List.isChain_map] at hchain
  exact hchain.imp fun f g hfg hnext =>
    let hjoint := hfg ((precedes_unnumbered f g).trans hnext)
    ⟨hjoint.context, hjoint.code, hjoint.seam⟩

/-! ## Boundaries next to a joint -/

theorem precedes_merge_right (f g h : Fragment) : f.precedes (g.merge h) = f.precedes g := rfl

/-- A boundary behind the second of two statements is one behind both. -/
theorem Joint.merge_left (hfg : f.Joint g) (hgh : g.Joint h) : (f.merge g).Joint h where
  context := hgh.context
  code := hfg.code.append hfg.seam
  seam := (seam_of_suffix hgh.code.ne_nil (List.suffix_append ..)).1 hgh.seam

/-- A boundary in front of the first of two statements is one in front of both. -/
theorem Joint.merge_right (hfg : f.Joint g) (hgh : g.Joint h) : f.Joint (g.merge h) where
  context := hfg.context
  code := hfg.code
  seam := by
    refine hfg.seam.imp_left fun hline => ?_
    obtain ⟨ch, text, hg⟩ := List.exists_cons_of_ne_nil hgh.code.ne_nil
    simpa [AtLineEnd, merge, hg] using hline

/-- No selector reaches over a seam. -/
theorem divided_of_seam (hseam : Seam f.content g.content) (window : Nat) : Divided window f g := by
  rcases hseam with hline | hsemi
  · have hfits := takeBytes_prefix window g.content
    exact dividedSelector_of_newline (hline.of_prefix hfits) _
  · obtain ⟨text, hf⟩ := List.getLast?_eq_some_iff.1 hsemi
    rw [Divided, hf]
    exact dividedSelector_of_semicolon window text _

/-- Only white space is trimmed to nothing. -/
theorem trim_eq_nil_iff {text : List Char} : trim text = [] ↔ ∀ c ∈ text, isUnicodeSpace c := by
  obtain ⟨space, hspace, hwhite⟩ := exists_append_trimStart text
  simp only [trim, trimEnd, trimStart, List.reverse_eq_nil_iff, List.dropWhile_eq_nil_iff,
    List.mem_reverse]
  refine ⟨fun h c hc => ?_, fun h c hc => h c (List.dropWhile_subset _ hc)⟩
  rw [hspace] at hc
  exact (List.mem_append.1 hc).elim (hwhite c) (h c)

/-- A boundary that is kept is kept when the statement behind it is joined to the next. -/
theorem stitch_merge_eq_keep (hfg : f.Abuts g) (hgh : g.Joint h)
    (hkeep : f.stitch window g = (f, some g)) :
    f.stitch window (g.merge h) = (f, some (g.merge h)) := by
  cases hnext : f.precedes g with
  | false => simp [stitch, precedes_merge_right, hnext]
  | true =>
    have hjoint := hfg hnext
    rw [stitch_eq_keep_iff hnext, between_eq_keep_iff] at hkeep
    obtain ⟨hblank, -, htail, hhead⟩ := hkeep
    rw [stitch_eq_keep_iff (precedes_merge_right f g h ▸ hnext), between_eq_keep_iff]
    have hblank' : trim (g.merge h).content ≠ [] := fun hnil =>
      hblank (trim_eq_nil_iff.2 fun c hc => trim_eq_nil_iff.1 hnil c (List.mem_append_left _ hc))
    refine ⟨hblank', divided_of_seam (hjoint.merge_right hgh).seam window, htail, ?_⟩
    have hset : g.context.guardSet = .script := by rw [hjoint.context]; rfl
    rw [hset] at hhead
    have hset' : (g.merge h).context.guardSet = .script := hset
    rw [hset']
    exact beginsWithContinuation_takeBytes_append hgh.code hgh.seam hhead

/-! ## The pass -/

/-- The boundary is that of a statement, if it could be removed, and it is kept. -/
def Settled (window : Nat) (f g : Fragment) : Prop :=
  f.Abuts g ∧ f.stitch window g = (f, some g)

/-- To stitch one more fragment to settled ones leaves them settled. -/
theorem settled_stitchNext (hdone : done.IsChain fun g f => f.Settled window g)
    (hnext : ∀ f ∈ done.head?, f.Abuts g) :
    ((stitchNext window done g).IsChain fun g f => f.Settled window g) ∧
      ∀ h, g.Abuts h → ∀ f ∈ (stitchNext window done g).head?, f.Abuts h := by
  have hadd : ((g :: done).IsChain fun g f => f.Settled window g) →
      ((g :: done).IsChain fun g f => f.Settled window g) ∧
        ∀ h, g.Abuts h → ∀ f ∈ (g :: done).head?, f.Abuts h := fun hchain =>
    ⟨hchain, fun h hgh f hf => by
      obtain rfl : g = f := by simpa using hf
      exact hgh⟩
  cases done with
  | nil => exact hadd (.singleton g)
  | cons f done =>
    have hfg : f.Abuts g := hnext f rfl
    rw [stitchNext]
    cases hprecedes : f.precedes g with
    | false =>
      have hkeep : f.stitch window g = (f, some g) := by simp [stitch, hprecedes]
      rw [hkeep]
      exact hadd (.cons_cons ⟨hfg, hkeep⟩ hdone)
    | true =>
      have hjoint := hfg hprecedes
      rcases stitch_of_divided (divided_of_seam hjoint.seam window) with hkeep | hmerge
      · rw [hkeep]
        exact hadd (.cons_cons ⟨hfg, hkeep⟩ hdone)
      · rw [hmerge]
        refine ⟨?_, ?_⟩
        · cases done with
          | nil => exact .singleton _
          | cons e done =>
            obtain ⟨⟨hef, hkeep⟩, hmore⟩ := List.isChain_cons_cons.1 hdone
            refine .cons_cons ⟨fun hprecedes => ?_, ?_⟩ hmore
            · exact (hef hprecedes).merge_right hjoint
            · exact stitch_merge_eq_keep hef hjoint hkeep
        · intro h hgh k hk hprecedes'
          obtain rfl : f.merge g = k := by simpa using hk
          rw [precedes_merge hprecedes] at hprecedes'
          exact hjoint.merge_left (hgh hprecedes')

/-- A pass over fragments that abut settles them. -/
theorem settled_foldl_stitchNext (hfs : fs.IsChain Abuts)
    (hdone : done.IsChain fun g f => f.Settled window g)
    (hnext : ∀ f ∈ done.head?, ∀ g ∈ fs.head?, f.Abuts g) :
    (fs.foldl (stitchNext window) done).IsChain fun g f => f.Settled window g := by
  induction fs generalizing done with
  | nil => exact hdone
  | cons g fs ih =>
    obtain ⟨hchain, habuts⟩ := settled_stitchNext hdone fun f hf => hnext f hf g rfl
    exact ih hfs.tail hchain fun f hf h hh => habuts h (hfs.rel_head? hh) f hf

/-- A pass over what the structural pass has found settles every boundary. What is left is
kept, also in front of fragments that have grown since the boundary was decided, so that
another pass finds nothing to do. -/
theorem stitchAll_settles (options : Options) (text : List Char) (window : Nat) :
    let fs := stitchAll window (Scan.outline options text).fragments
    stitchAll window fs = fs ∧
      fs.IsChain fun f g => f.precedes g → Boundary.between window f g = .keep := by
  intro fs
  have hsettled : fs.IsChain (Settled window) :=
    List.isChain_reverse.2 (settled_foldl_stitchNext (isChain_abuts options text) .nil (by simp))
  refine ⟨stitchAll_of_kept (hsettled.imp fun f g hfg => hfg.2), ?_⟩
  exact hsettled.imp fun f g hfg hnext => (stitch_eq_keep_iff hnext window).1 hfg.2

/-- A line that goes on with an operator is joined to the one before, and the next is not. -/
example :
    let fs := (Scan.outline .standard "script \x7b a = b\n+ c;\nd(); \x7d".toList).fragments
    fs.map content = ["script \x7b ", "a = b", "\n+ c;", "\nd();", " \x7d"].map String.toList ∧
    (stitchAll 64 fs).map content =
      ["script \x7b ", "a = b\n+ c;", "\nd();", " \x7d"].map String.toList := by decide +kernel

end Fragment

end Polyglot
