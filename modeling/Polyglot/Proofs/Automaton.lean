-- SUMMARY: Skipping regions leaves exactly the text that an automaton for strings and comments finds in code.
import Polyglot.Proofs.Brace
import Polyglot.Proofs.Operation

/-!
# Reading character by character

A walk over a document skips a string or a comment as a whole: it searches for the end of
the region and goes on from there. A reader that takes one character after the other only
has to remember a `GuardState`. At every cursor the two find the same region, with the same
end (`Cursor.skipGuarded_eq`), so they put the same characters outside code
(`GuardSet.readsAlike`).
-/

namespace Polyglot

/-! ## The automaton -/

/-- Where a reader of single characters stands. -/
inductive GuardState where
  | code
  /-- In a string that `quote` closes. -/
  | string (quote : Char)
  /-- In such a string, behind a backslash. -/
  | escaped (quote : Char)
  /-- In a comment that ends with its line. -/
  | line (kind : GuardKind)
  /-- Between the slash and the star that open a block comment. -/
  | slash
  /-- In a block comment. -/
  | block
  /-- In a block comment, behind a star. -/
  | star
  deriving DecidableEq

namespace GuardState

/-- The state behind a character that is met in code. Comments are told by the one or two
characters behind it. -/
def enter (set : GuardSet) (ch : Char) (rest : List Char) : GuardState :=
  if ch ∈ set.quotes then .string ch
  else if set.lineComments ∧ ch = '/' ∧ rest.head? = some '/' then .line .lineComment
  else if set.blockComments ∧ ch = '/' ∧ rest.head? = some '*' then .slash
  else if set.generatorComments ∧ ch = '-' ∧ rest.head? = some '-' ∧
      rest.tail.head?.all isBlank then .line .generatorComment
  else .code

/-- The state behind a character. -/
def next (set : GuardSet) (s : GuardState) (ch : Char) (rest : List Char) : GuardState :=
  match s with
  | .code => enter set ch rest
  | .string quote => if ch = quote then .code else if ch = '\\' then .escaped quote else s
  | .escaped quote => .string quote
  | .line _ => if ch = '\n' then .code else s
  | .slash => .block
  | .block => if ch = '*' then .star else .block
  | .star => if ch = '/' then .code else if ch = '*' then .star else .block

/-- The character belongs to a string or a comment. The line feed behind a comment does not. -/
def guards (set : GuardSet) (s : GuardState) (ch : Char) (rest : List Char) : Bool :=
  match s with
  | .code => enter set ch rest ≠ .code
  | .line _ => ch ≠ '\n'
  | _ => true

/-- For each character of a text, whether it belongs to a string or a comment. -/
def marks (set : GuardSet) : GuardState → List Char → List Bool
  | _, [] => []
  | s, ch :: rest => s.guards set ch rest :: marks set (s.next set ch rest) rest

/-- The kind of the region that the reader stands in. -/
def kind? : GuardState → Option GuardKind
  | .code => none
  | .string _ | .escaped _ => some .string
  | .line kind => some kind
  | .slash | .block | .star => some .blockComment

/-- The region that the reader stood in is over where this text is left. -/
def isOver (s : GuardState) (rest : List Char) : Bool :=
  match s with
  | .code => true
  | .line _ => rest.head?.all (· = '\n')
  | _ => false

/-- Where the region that the reader stands in is over, if it ever is. -/
def regionEnd (set : GuardSet) : GuardState → Position → List Char → Option Cursor
  | s, pos, [] => if s.isOver [] then some ⟨pos, []⟩ else none
  | s, pos, ch :: rest =>
    if s.isOver (ch :: rest) then some ⟨pos, ch :: rest⟩
    else regionEnd set (s.next set ch rest) (pos.advance ch) rest

end GuardState

/-- What the automaton finds ahead: no region, a region up to its end, or one that runs to
the end of the text. -/
def Cursor.readGuarded (set : GuardSet) (c : Cursor) : Cursor.Guard × Cursor :=
  match c.rest with
  | [] => (.clear, c)
  | ch :: rest =>
    let s := GuardState.enter set ch rest
    match s.kind? with
    | none => (.clear, c)
    | some kind =>
      match s.regionEnd set (c.position.advance ch) rest with
      | some d => (.skipped kind, d)
      | none =>
        (.unterminated ⟨if kind = .string then .string (firstByte ch) else .blockComment,
          c.position⟩, c.toEnd)

namespace GuardState

variable {set : GuardSet}

/-- The state that a region is entered in tells its kind. -/
theorem enter_eq (set : GuardSet) (ch : Char) (rest : List Char) :
    enter set ch rest = match set.kindAt (ch :: rest) with
      | none => .code
      | some .string => .string ch
      | some .blockComment => .slash
      | some kind => .line kind := by
  have hhead : ∀ {x}, rest.head? = some x → ∃ after, rest = x :: after :=
    fun h => List.head?_eq_some_iff.1 h
  cases hkind : set.kindAt (ch :: rest) with
  | none =>
    have hno : ∀ kind, set.kindAt (ch :: rest) ≠ some kind := by simp [hkind]
    have hquote : ch ∉ set.quotes := fun h => hno _ (GuardSet.kindAt_string_iff.2 h)
    unfold enter
    rw [if_neg hquote, if_neg, if_neg, if_neg]
    · rintro ⟨hon, hch, hnext, hblank⟩
      obtain ⟨after, rfl⟩ := hhead hnext
      exact hno _ (GuardSet.kindAt_generatorComment_iff.2 ⟨hquote, hon, hch, after, rfl, hblank⟩)
    · rintro ⟨hon, hch, hnext⟩
      exact hno _ (GuardSet.kindAt_blockComment_iff.2 ⟨hquote, hon, hch, hhead hnext⟩)
    · rintro ⟨hon, hch, hnext⟩
      exact hno _ (GuardSet.kindAt_lineComment_iff.2 ⟨hquote, hon, hch, hhead hnext⟩)
  | some kind =>
    cases kind with
    | string =>
      have hquote := GuardSet.kindAt_string_iff.1 hkind
      simp [enter, hquote]
    | lineComment =>
      obtain ⟨hquote, hon, rfl, after, rfl⟩ := GuardSet.kindAt_lineComment_iff.1 hkind
      simp [enter, hquote, hon]
    | blockComment =>
      obtain ⟨hquote, hon, rfl, after, rfl⟩ := GuardSet.kindAt_blockComment_iff.1 hkind
      simp [enter, hquote, hon]
    | generatorComment =>
      obtain ⟨hquote, hon, rfl, after, rfl, hblank⟩ := GuardSet.kindAt_generatorComment_iff.1 hkind
      simp [enter, hquote, hon, hblank]

/-- A region is entered with exactly the characters that begin one. -/
theorem kind?_enter (set : GuardSet) (ch : Char) (rest : List Char) :
    (enter set ch rest).kind? = set.kindAt (ch :: rest) := by
  rw [enter_eq]
  cases set.kindAt (ch :: rest) with
  | none => rfl
  | some kind => cases kind <;> rfl

/-! ## Regions -/

@[simp] theorem regionEnd_code (pos : Position) (text : List Char) :
    regionEnd set .code pos text = some ⟨pos, text⟩ := by
  cases text <;> rfl

/-- The reader leaves a string where the search for its closing quote ends. -/
theorem regionEnd_string {quote : Char} (hquote : quote.toNat < 0x80) (pos : Position)
    (text : List Char) :
    regionEnd set (.string quote) pos text = Cursor.stringEnd (firstByte quote) pos text := by
  have hne : ∀ {ch}, firstByte ch ≠ firstByte quote → ch ≠ quote := by
    rintro ch hopen rfl
    exact hopen rfl
  fun_induction Cursor.stringEnd (firstByte quote) pos text with
  | case1 => rfl
  | case2 pos ch rest hclose =>
    obtain rfl := eq_of_firstByte_eq hquote hclose
    simp [regionEnd, isOver, next]
  | case3 pos hopen => simp [regionEnd, isOver, next, hne hopen]
  | case4 pos escaped rest hopen ih => simpa [regionEnd, isOver, next, hne hopen] using ih
  | case5 pos ch rest hopen hback ih =>
    simpa [regionEnd, isOver, next, hne hopen, hback] using ih

/-- The reader leaves a comment that ends with its line in front of the line feed. -/
theorem regionEnd_line (kind : GuardKind) (pos : Position) (text : List Char) :
    regionEnd set (.line kind) pos text = some (Cursor.eatWhileFrom (· != '\n') pos text) := by
  induction text generalizing pos with
  | nil => rfl
  | cons ch rest ih =>
    by_cases hline : ch = '\n'
    · simp [regionEnd, isOver, Cursor.eatWhileFrom, hline]
    · simpa [regionEnd, isOver, next, Cursor.eatWhileFrom, hline] using ih (pos.advance ch)

/-- Behind a star the reader only minds whether a slash comes next. -/
theorem regionEnd_star (pos : Position) (text : List Char) :
    regionEnd set .star pos text =
      if text.head? = some '/' then some ⟨pos.advance '/', text.tail⟩
      else regionEnd set .block pos text := by
  cases text with
  | nil => rfl
  | cons ch rest =>
    by_cases hslash : ch = '/'
    · simp [regionEnd, isOver, next, hslash]
    · simp [regionEnd, isOver, next, hslash]

/-- The reader leaves a block comment behind the first star and slash. -/
theorem regionEnd_block (pos : Position) (text : List Char) :
    regionEnd set .block pos text =
      (Cursor.findFrom ['*', '/'] pos text).map fun d => d.advance.advance := by
  induction text generalizing pos with
  | nil => rfl
  | cons ch rest ih =>
    by_cases hstar : ch = '*'
    · subst hstar
      have hstep : regionEnd set .block pos ('*' :: rest) =
          regionEnd set .star (pos.advance '*') rest := by simp [regionEnd, isOver, next]
      rw [hstep, regionEnd_star]
      split
      · next hslash =>
        obtain ⟨after, rfl⟩ := List.head?_eq_some_iff.1 hslash
        simp [Cursor.findFrom, Cursor.advance]
      · next hslash =>
        have hno : ¬ ['*', '/'].isPrefixOf ('*' :: rest) := by
          rw [List.isPrefixOf_iff_prefix]
          rintro ⟨after, hafter⟩
          simp [← (List.cons.inj hafter).2] at hslash
        rw [ih, Cursor.findFrom, if_neg hno]
    · have hno : ¬ ['*', '/'].isPrefixOf (ch :: rest) := by simp [Ne.symm hstar]
      rw [Cursor.findFrom, if_neg hno, ← ih]
      simp [regionEnd, isOver, next, hstar]

end GuardState

namespace Cursor

variable {set : GuardSet}

theorem readGuarded_cons (set : GuardSet) (p : Position) (ch : Char) (rest : List Char) :
    readGuarded set ⟨p, ch :: rest⟩ = match set.kindAt (ch :: rest) with
      | none => (.clear, ⟨p, ch :: rest⟩)
      | some kind =>
        match (GuardState.enter set ch rest).regionEnd set (p.advance ch) rest with
        | some d => (.skipped kind, d)
        | none =>
          (.unterminated ⟨if kind = .string then .string (firstByte ch) else .blockComment, p⟩,
            toEnd ⟨p, ch :: rest⟩) := by
  simp only [readGuarded, GuardState.kind?_enter]

/-- To skip what lies ahead is to read it character by character. -/
theorem skipGuarded_eq (hset : set.quotes ⊆ GuardSet.script.quotes) (c : Cursor) :
    c.skipGuarded set = c.readGuarded set := by
  obtain ⟨p, text⟩ := c
  cases text with
  | nil => rfl
  | cons ch rest =>
    rw [readGuarded_cons, GuardState.enter_eq]
    simp only [skipGuarded, front]
    cases hkind : set.kindAt (ch :: rest) with
    | none => rfl
    | some kind =>
      cases kind with
      | string =>
        have hquote := (quote_spec (hset (GuardSet.kindAt_string_iff.1 hkind))).1
        simp only [GuardState.regionEnd_string hquote]
        cases hend : stringEnd (firstByte ch) (p.advance ch) rest with
        | none =>
          obtain ⟨issue, hskip⟩ := skipString_eq_error hend
          rw [hskip, skipString_error rfl hskip]
          rfl
        | some d =>
          let after : (⟨p, ch :: rest⟩ : Cursor).Later :=
            (next ⟨p, ch :: rest⟩ ch rest rfl).move d (stringEnd_reaches hend)
          have hskip : skipString ⟨p, ch :: rest⟩ = .ok after := skipString_eq_ok_iff.2 hend
          rw [hskip]
          rfl
      | blockComment =>
        obtain ⟨-, -, rfl, after, rfl⟩ := GuardSet.kindAt_blockComment_iff.1 hkind
        have hstep : GuardState.slash.regionEnd set (p.advance '/') ('*' :: after) =
            GuardState.block.regionEnd set ((p.advance '/').advance '*') after := rfl
        simp only [hstep, GuardState.regionEnd_block]
        cases hfind : findFrom ['*', '/'] ((p.advance '/').advance '*') after with
        | none =>
          have hend : blockCommentEnd (next ⟨p, '/' :: '*' :: after⟩ '/' ('*' :: after) rfl) =
              none := blockCommentEnd_eq_none_iff.2 hfind
          rw [hend]
          rfl
        | some d =>
          obtain ⟨e, hend, he⟩ : ∃ e,
              blockCommentEnd (next ⟨p, '/' :: '*' :: after⟩ '/' ('*' :: after) rfl) = some e ∧
                e.cursor = d.advance.advance := exists_blockCommentEnd hfind
          rw [hend]
          simp [he]
      | lineComment | generatorComment =>
        simp only [GuardState.regionEnd_line]
        rfl

theorem skipGuarded_clear {c d : Cursor} (h : c.skipGuarded set = (.clear, d)) : d = c := by
  unfold skipGuarded at h
  split at h <;> cases h <;> rfl

/-- A region is skipped from its first character on. -/
theorem skipGuarded_skipped {c d : Cursor} {kind : GuardKind}
    (h : c.skipGuarded set = (.skipped kind, d)) : c.StrictlyReaches d := by
  unfold skipGuarded at h
  split at h <;> cases h
  exact Later.strictlyReaches _

/-- A region that never ends is skipped to the end of the text, and noted where it begins. -/
theorem skipGuarded_unterminated {c d : Cursor} {issue : GuardIssue}
    (h : c.skipGuarded set = (.unterminated issue, d)) :
    c.StrictlyReaches d ∧ d.rest = [] ∧ issue.start = c.position := by
  unfold skipGuarded at h
  split at h <;> cases h
  next issue atEnd hfront =>
    refine ⟨Later.strictlyReaches _, atEnd_of_front hfront, ?_⟩
    obtain ⟨_, -, _, -, rfl⟩ | ⟨-, rfl⟩ := front_openRegion hfront
    · rfl
    · rfl

/-! ## Characters outside code -/

/-- A walk that skips the region ahead, and else goes over one character: for each character
of the text, whether it was skipped. -/
def guardMarks (set : GuardSet) (c : Cursor) : List Bool :=
  if _ : c.atEnd then []
  else
    match _ : c.skipGuarded set with
    | (.clear, _) => false :: guardMarks set c.advance
    | (.skipped _, d) | (.unterminated _, d) =>
      (c.textTo d).map (fun _ => true) ++ guardMarks set d
termination_by c.rest.length
decreasing_by
  · next hend _ _ =>
    have hne : c.rest ≠ [] := by simpa [atEnd] using hend
    exact (strictlyReaches_advance hne).length_lt
  · next hskip => exact (skipGuarded_skipped hskip).length_lt
  · next hskip => exact (skipGuarded_unterminated hskip).1.length_lt

end Cursor

namespace GuardState

variable {set : GuardSet}

/-- Where a region is over, the reader goes on as in code. -/
theorem marks_of_isOver (hline : '\n' ∉ set.quotes) {s : GuardState} {text : List Char}
    (h : s.isOver text) : marks set s text = marks set .code text := by
  cases text with
  | nil => rfl
  | cons ch rest =>
    cases s with
    | code => rfl
    | line kind =>
      obtain rfl : ch = '\n' := by simpa [isOver] using h
      have hcode : enter set '\n' rest = .code := by simp [enter, hline]
      simp [marks, guards, next, hcode]
    | _ => cases h

theorem guards_of_not_isOver {s : GuardState} {ch : Char} {rest : List Char}
    (h : s.isOver (ch :: rest) = false) : s.guards set ch rest = true := by
  cases s with
  | code => cases h
  | line kind => simpa [isOver, guards] using h
  | _ => rfl

/-- Up to where a region is over, all characters belong to it. -/
theorem marks_regionEnd (hline : '\n' ∉ set.quotes) (s : GuardState) (pos : Position)
    (text : List Char) :
    match regionEnd set s pos text with
    | some d => ∃ u, (⟨pos, text⟩ : Cursor).Consumes u d ∧
        marks set s text = u.map (fun _ => true) ++ marks set .code d.rest
    | none => marks set s text = text.map fun _ => true := by
  induction text generalizing s pos with
  | nil =>
    cases hover : s.isOver [] with
    | true =>
      simp only [regionEnd, hover, if_true]
      exact ⟨[], .refl _, rfl⟩
    | false =>
      simp only [regionEnd, hover]
      rfl
  | cons ch rest ih =>
    cases hover : s.isOver (ch :: rest) with
    | true =>
      simp only [regionEnd, hover, if_true]
      exact ⟨[], .refl _, marks_of_isOver hline hover⟩
    | false =>
      have hmore := ih (s.next set ch rest) (pos.advance ch)
      have hmark : marks set s (ch :: rest) = true :: marks set (s.next set ch rest) rest := by
        rw [marks, guards_of_not_isOver hover]
      have hstep : regionEnd set s pos (ch :: rest) =
          regionEnd set (s.next set ch rest) (pos.advance ch) rest := by
        simp [regionEnd, hover]
      rw [hstep, hmark]
      cases hend : regionEnd set (s.next set ch rest) (pos.advance ch) rest with
      | none =>
        rw [hend] at hmore
        simp only at hmore ⊢
        rw [hmore]
        rfl
      | some d =>
        rw [hend] at hmore
        obtain ⟨u, hu, hmarks⟩ := hmore
        refine ⟨ch :: u, Cursor.Consumes.trans (u := [ch]) ⟨rfl, rfl⟩ hu, ?_⟩
        rw [hmarks]
        rfl

end GuardState

namespace Cursor

variable {set : GuardSet}

/-- What a region ahead means for the marks of the text. -/
theorem marks_readGuarded (hline : '\n' ∉ set.quotes) {c : Cursor} (hmore : c.rest ≠ []) :
    match c.readGuarded set with
    | (.clear, _) =>
      GuardState.marks set .code c.rest = false :: GuardState.marks set .code c.advance.rest
    | (.skipped _, d) | (.unterminated _, d) =>
      GuardState.marks set .code c.rest =
        (c.textTo d).map (fun _ => true) ++ GuardState.marks set .code d.rest := by
  obtain ⟨p, text⟩ := c
  cases text with
  | nil => exact absurd rfl hmore
  | cons ch rest =>
    rw [readGuarded_cons]
    have hkind? := GuardState.kind?_enter set ch rest
    cases hkind : set.kindAt (ch :: rest) with
    | none =>
      have hcode : GuardState.enter set ch rest = .code := by rw [GuardState.enter_eq, hkind]
      simp [GuardState.marks, GuardState.guards, GuardState.next, hcode, advance]
    | some kind =>
      have hguards : GuardState.enter set ch rest ≠ .code := by
        intro hcode
        rw [hcode, hkind] at hkind?
        cases hkind?
      have hmarks : GuardState.marks set .code (ch :: rest) =
          true :: GuardState.marks set (GuardState.enter set ch rest) rest := by
        simp [GuardState.marks, GuardState.guards, GuardState.next, hguards]
      have hregion :=
        GuardState.marks_regionEnd hline (GuardState.enter set ch rest) (p.advance ch) rest
      cases hend : (GuardState.enter set ch rest).regionEnd set (p.advance ch) rest with
      | none =>
        rw [hend] at hregion
        have hall : (⟨p, ch :: rest⟩ : Cursor).Consumes (ch :: rest) (toEnd ⟨p, ch :: rest⟩) :=
          ⟨(List.append_nil _).symm, rfl⟩
        simp only [hmarks, hregion, hall.textTo_eq]
        exact (List.append_nil _).symm
      | some d =>
        rw [hend] at hregion
        obtain ⟨u, hu, hmore⟩ := hregion
        have hall : (⟨p, ch :: rest⟩ : Cursor).Consumes (ch :: u) d :=
          Consumes.trans (u := [ch]) ⟨rfl, rfl⟩ hu
        simp only [hmarks, hmore, hall.textTo_eq]
        rfl

/-- The walk skips the characters that the automaton finds outside code. -/
theorem guardMarks_eq (hset : set.quotes ⊆ GuardSet.script.quotes) (c : Cursor) :
    c.guardMarks set = GuardState.marks set .code c.rest := by
  have hline : '\n' ∉ set.quotes := fun h => absurd (hset h) (by decide)
  fun_induction guardMarks set c with
  | case1 c hend =>
    have hnil : c.rest = [] := by simpa [atEnd] using hend
    rw [hnil]
    rfl
  | case2 c hend d hskip ih =>
    have hmarks := marks_readGuarded (c := c) hline (by simpa [atEnd] using hend)
    rw [← skipGuarded_eq hset, hskip] at hmarks
    rw [hmarks, ih]
  | case3 c hend kind d hskip ih | case4 c hend issue d hskip ih =>
    have hmarks := marks_readGuarded (c := c) hline (by simpa [atEnd] using hend)
    rw [← skipGuarded_eq hset, hskip] at hmarks
    rw [hmarks, ih]

end Cursor

/-! ## The two ways to read -/

/-- At a cursor, skipping regions and reading character by character come to the same. -/
structure GuardSet.ReadsAlike (set : GuardSet) (c : Cursor) : Prop where
  /-- A walk to the end of the text skips what the automaton finds outside code. -/
  marks : c.guardMarks set = GuardState.marks set .code c.rest
  /-- One skip goes over the region that the automaton goes through. -/
  skips : c.skipGuarded set = c.readGuarded set
  /-- Where no region begins, nothing moves. -/
  clear : ∀ d, c.skipGuarded set = (.clear, d) → d = c
  /-- A region that ends is passed. -/
  skipped : ∀ kind d, c.skipGuarded set = (.skipped kind, d) → c.StrictlyReaches d
  /-- A region that never ends takes the rest of the text, and is noted where it begins. -/
  unterminated : ∀ issue d, c.skipGuarded set = (.unterminated issue, d) →
    c.StrictlyReaches d ∧ d.rest = [] ∧ issue.start = c.position

/-- Under the guard set of every sub-language, with generator comments or without. -/
theorem GuardSet.readsAlike {base : GuardSet} (hbase : base ∈ [template, style, script, raw])
    (generator : Bool) (c : Cursor) : (base.withGeneratorComments generator).ReadsAlike c := by
  have hset : (base.withGeneratorComments generator).quotes ⊆ GuardSet.script.quotes := by
    have hquotes : ∀ set ∈ [template, style, script, raw],
        set.quotes ⊆ GuardSet.script.quotes := by decide
    exact hquotes base hbase
  exact {
    marks := Cursor.guardMarks_eq hset c
    skips := Cursor.skipGuarded_eq hset c
    clear := fun _ => Cursor.skipGuarded_clear
    skipped := fun _ _ => Cursor.skipGuarded_skipped
    unterminated := fun _ _ => Cursor.skipGuarded_unterminated }

/-- Two hyphens that no blank follows are code; an escaped character closes no string; the
star that opens a comment does not close it. -/
theorem GuardSet.readsAlike_template :
    GuardSet.template ∈ [GuardSet.template, .style, .script, .raw] ∧
      Cursor.guardMarks (GuardSet.template.withGeneratorComments true)
        ⟨.start, "--a'\\''/*/*/--".toList⟩ = List.replicate 3 false ++ List.replicate 11 true :=
  ⟨by decide, (GuardSet.readsAlike (by decide) true _).marks.trans (by decide)⟩

end Polyglot
