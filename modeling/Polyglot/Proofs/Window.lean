-- SUMMARY: A larger window takes back what a smaller one joined only where the smaller one cut a token.
import Polyglot.Proofs.Beside
import Polyglot.Proofs.Trailing

/-!
# The stitch window

A boundary is decided from a few bytes on either side of it, and the window may end inside
of a token: of a word that begins like a keyword, of a step operator, or of the two
characters that open a comment. What is left of the token can be a continuation although
the token is none. `Fragment.Misread` says when, and `Fragment.keeps_iff_misread` that
there is no other way for a larger window to keep a boundary that a smaller one removes.
-/

namespace Polyglot

variable {set : GuardSet} {c d : Cursor}

/-! ## Leading trivia -/

theorem afterTrivia_comment {kind : GuardKind} {after : c.Later}
    (ahead : c.front set = .region kind after) (comment : kind ≠ .string) :
    afterTrivia set c = afterTrivia set after.cursor := by
  rw [afterTrivia, ahead]
  cases kind with
  | string => exact absurd rfl comment
  | _ => rfl

theorem afterTrivia_blank {ch : Char} {after : c.Later} (ahead : c.front set = .code ch after)
    (blank : isBlank ch) : afterTrivia set c = afterTrivia set after.cursor := by
  rw [afterTrivia, ahead]
  simp only [blank, if_true]

/-- A character of code that is no blank ends the trivia. -/
theorem afterTrivia_code {ch : Char} {after : c.Later} (ahead : c.front set = .code ch after)
    (solid : isBlank ch = false) : afterTrivia set c = c.rest := by
  rw [afterTrivia, ahead]
  simp [solid]

theorem afterTrivia_nil (p : Position) : afterTrivia set ⟨p, []⟩ = [] := by
  rw [afterTrivia, Cursor.front_eq_finish_iff.2 rfl]

/-- What is passed over does not depend on the place in the document. -/
theorem afterTrivia_of_rest (h : c.rest = d.rest) : afterTrivia set c = afterTrivia set d := by
  fun_induction afterTrivia set c generalizing d with
  | case1 c ahead =>
    have hnil := Cursor.front_eq_finish_iff.1 ahead
    rw [afterTrivia, Cursor.front_eq_finish_iff.2 (h ▸ hnil), h]
  | case2 c after ahead =>
    obtain ⟨after', ahead', -⟩ := Cursor.front_region_of_rest h ahead
    rw [afterTrivia, ahead', h]
  | case3 c issue atEnd ahead hblock =>
    obtain ⟨issue', atEnd', ahead', hsame⟩ := Cursor.front_openRegion_of_rest h ahead
    rw [afterTrivia, ahead']
    simp [hsame, hblock]
  | case4 c issue atEnd ahead hstring =>
    obtain ⟨issue', atEnd', ahead', hsame⟩ := Cursor.front_openRegion_of_rest h ahead
    rw [afterTrivia, ahead', h]
    simp [hsame, hstring]
  | case5 c kind after comment ahead ih =>
    obtain ⟨after', ahead', hrest⟩ := Cursor.front_region_of_rest h ahead
    rw [ih hrest, afterTrivia_comment ahead' comment]
  | case6 c ch after ahead blank ih =>
    obtain ⟨after', ahead', hrest⟩ := Cursor.front_code_of_rest h ahead
    rw [ih hrest, afterTrivia_blank ahead' blank]
  | case7 c ch after ahead solid =>
    obtain ⟨after', ahead', -⟩ := Cursor.front_code_of_rest h ahead
    rw [h, afterTrivia_code ahead' (by simpa using solid)]

/-- Trivia that something follows are passed over in the same way if more text follows. -/
theorem afterTrivia_append (h : afterTrivia set c ≠ []) (more : List Char) (p q : Position) :
    afterTrivia set ⟨p, c.rest ++ more⟩ = afterTrivia set ⟨q, afterTrivia set c ++ more⟩ := by
  fun_induction afterTrivia set c generalizing p with
  | case1 | case2 | case4 | case7 => exact afterTrivia_of_rest rfl
  | case3 => exact absurd rfl h
  | case5 c kind after comment ahead ih =>
    obtain ⟨u, hregion, hu, hline⟩ := Cursor.front_eq_region ahead
    -- something is left behind the comment, so it does not end where the text is cut off
    have hends : kind.isLine → AtLineEnd (after.cursor.rest ++ more) := by
      intro hkind
      have hatLine := hline hkind
      cases hrest : after.cursor.rest with
      | nil => exact absurd ((afterTrivia_of_rest hrest).trans (afterTrivia_nil p)) h
      | cons ch rest => simpa [AtLineEnd, hrest] using hatLine
    obtain ⟨after', ahead', hafter⟩ := Cursor.front_of_isRegion hregion hends p
    rw [hu.1, List.append_assoc, afterTrivia_comment ahead' comment, hafter]
    exact ih h _
  | case6 c ch after ahead blank ih =>
    have hquote : ch ∉ set.quotes := fun hmem => by
      have hkind := Cursor.kindAt_of_front_code ahead
      rw [(Cursor.front_code ahead).1, GuardSet.kindAt_string_iff.2 hmem] at hkind
      cases hkind
    have hne : ∀ x, isBlank x = false → ch ≠ x := by
      rintro x hx rfl
      rw [blank] at hx
      cases hx
    have hplain := GuardSet.plain_of hquote (hne '/' (by decide)) (.inl (hne '-' (by decide)))
    obtain ⟨after', ahead', hafter⟩ := Cursor.front_eq_code (hplain (after.cursor.rest ++ more)) p
    rw [(Cursor.front_code ahead).1, List.cons_append, afterTrivia_blank ahead' blank, hafter]
    exact ih h _

/-- Behind the trivia stands code or a string. -/
theorem solid_afterTrivia (h : afterTrivia set c ≠ []) :
    (set.kindAt (afterTrivia set c) = none ∧
      ∃ ch ∈ (afterTrivia set c).head?, isBlank ch = false) ∨
    set.kindAt (afterTrivia set c) = some .string := by
  fun_induction afterTrivia set c with
  | case1 c ahead => exact absurd (Cursor.front_eq_finish_iff.1 ahead) h
  | case2 c after ahead =>
    obtain ⟨u, hregion, hu, -⟩ := Cursor.front_eq_region ahead
    cases hregion with
    | string quote =>
      rw [hu.1]
      exact .inr (GuardSet.kindAt_string_iff.2 quote)
  | case3 => exact absurd rfl h
  | case4 c issue atEnd ahead hstring =>
    obtain ⟨quote, hquote, behind, hrest, -⟩ | ⟨-, rfl⟩ := Cursor.front_openRegion ahead
    · rw [hrest]
      exact .inr (GuardSet.kindAt_string_iff.2 hquote)
    · exact absurd rfl hstring
  | case5 c kind after comment ahead ih => exact ih h
  | case6 c ch after ahead blank ih => exact ih h
  | case7 c ch after ahead solid =>
    refine .inl ⟨Cursor.kindAt_of_front_code ahead, ch, ?_, by simpa using solid⟩
    rw [(Cursor.front_code ahead).1]
    rfl

/-! ## Tokens cut at the end of the window -/

/-- A text without leading trivia begins so that the statement before it goes on. -/
def isContinuation (text : List Char) : Bool :=
  !stepOperators.any (·.toList.isPrefixOf text) &&
    (leadingContinuations.any (·.toList.isPrefixOf text) ||
      continuationKeywords.any (beginsWithWord · text))

theorem beginsWithContinuation_eq (head : List Char) :
    beginsWithContinuation set head = isContinuation (afterTrivia set ⟨.start, head⟩) := rfl

/-- `left` is what a window holds of a token that goes on with `more`. It is a continuation,
but the token is none. -/
inductive CutsToken (set : GuardSet) (left more : List Char) : Prop where
  /-- One character of a step operator. -/
  | step {ch : Char} (listed : ch ∈ ['+', '-']) (first : left = [ch])
      (second : more.head? = some ch) (code : set.kindAt (left ++ more) = none)
  /-- A keyword that is the beginning of a longer word. -/
  | word {word : String} (listed : word ∈ continuationKeywords) (first : left = word.toList)
      (longer : more.head?.any isWordPart)
  /-- The first character of a comment, behind which no continuation stands. -/
  | comment {ch : Char} {kind : GuardKind} (first : left = [ch])
      (opens : set.kindAt (left ++ more) = some kind)
      (behind : beginsWithContinuation set (left ++ more) = false)

theorem not_isContinuation_of_quote {text : List Char}
    (hset : set.quotes ⊆ GuardSet.script.quotes) (h : set.kindAt text = some .string) :
    isContinuation text = false := by
  cases text with
  | nil => rfl
  | cons ch text =>
    have hquote := hset (GuardSet.kindAt_string_iff.1 h)
    simp only [GuardSet.script, List.mem_cons, List.not_mem_nil, or_false] at hquote
    rcases hquote with rfl | rfl | rfl <;> rfl

/-- A word that stands alone at the start of a text stands alone in a longer one too, unless
it is the whole text and goes on. -/
theorem beginsWithWord_append {word : String} {left : List Char} (h : beginsWithWord word left)
    (more : List Char) : beginsWithWord word (left ++ more) = false ↔
      left = word.toList ∧ more.head?.any isWordPart := by
  simp only [beginsWithWord, Bool.and_eq_true, List.isPrefixOf_iff_prefix] at h
  obtain ⟨⟨rest, rfl⟩, halone⟩ := h
  have hprefix : ∀ text, word.toList.isPrefixOf (word.toList ++ text) = true := fun text =>
    List.isPrefixOf_iff_prefix.2 (List.prefix_append ..)
  have hdrop : ∀ text, (word.toList ++ text).drop word.length = text := fun text => by
    rw [← String.length_toList, List.drop_left]
  rw [hdrop] at halone
  simp only [beginsWithWord, hprefix, List.append_assoc, hdrop, Bool.true_and]
  cases rest with
  | nil => simp
  | cons ch rest => simpa using halone

theorem isPrefixOf_append {op left : List Char} (h : op.isPrefixOf left) (more : List Char) :
    op.isPrefixOf (left ++ more) :=
  List.isPrefixOf_iff_prefix.2 ((List.isPrefixOf_iff_prefix.1 h).trans (List.prefix_append ..))

/-- Short beginnings of a text do not depend on what comes behind it. -/
theorem any_isPrefixOf_append {ops : List String} {text : List Char}
    (h : ∀ op ∈ ops, op.toList.length ≤ text.length) (more : List Char) :
    ops.any (·.toList.isPrefixOf (text ++ more)) = ops.any (·.toList.isPrefixOf text) := by
  rw [Bool.eq_iff_iff, List.any_eq_true, List.any_eq_true]
  exact exists_congr fun op => and_congr_right fun hmem => by
    rw [Cursor.isPrefixOf_append_iff more (h op hmem)]

/-- A step operator is one character twice. -/
theorem exists_of_mem_stepOperators {op : String} (h : op ∈ stepOperators) :
    ∃ ch ∈ ['+', '-'], op.toList = [ch, ch] := by
  simp only [stepOperators, List.mem_cons, List.not_mem_nil, or_false] at h
  rcases h with rfl | rfl
  · exact ⟨'+', by simp, rfl⟩
  · exact ⟨'-', by simp, rfl⟩

/-- A step operator that only the longer text begins with was cut in the middle. -/
theorem step_append_iff {left : List Char} (hleft : left ≠ [])
    (hnone : stepOperators.any (·.toList.isPrefixOf left) = false) (more : List Char) :
    stepOperators.any (·.toList.isPrefixOf (left ++ more)) = true ↔
      ∃ ch ∈ ['+', '-'], left = [ch] ∧ more.head? = some ch := by
  match left with
  | [] => exact absurd rfl hleft
  | [a] =>
    constructor
    · intro hstep
      obtain ⟨op, hop, hprefix⟩ := List.any_eq_true.1 hstep
      obtain ⟨ch, hch, hdouble⟩ := exists_of_mem_stepOperators hop
      rw [hdouble, List.isPrefixOf_iff_prefix] at hprefix
      obtain ⟨rest, hrest⟩ := hprefix
      obtain ⟨rfl, rfl⟩ : ch = a ∧ ch :: rest = more := by simpa using hrest
      exact ⟨ch, hch, rfl, rfl⟩
    · rintro ⟨ch, hch, hleft, hmore⟩
      obtain ⟨more, rfl⟩ := List.head?_eq_some_iff.1 hmore
      obtain rfl : a = ch := List.singleton_inj.1 hleft
      simp only [List.mem_cons, List.not_mem_nil, or_false] at hch
      rcases hch with rfl | rfl <;> rfl
  | a :: b :: left =>
    have hshort : ∀ op ∈ stepOperators, op.toList.length ≤ (a :: b :: left).length := by
      intro op hop
      obtain ⟨ch, -, hdouble⟩ := exists_of_mem_stepOperators hop
      simp [hdouble]
    rw [any_isPrefixOf_append hshort, hnone]
    simp

/-- A keyword followed by a part of a word is no continuation. -/
theorem keyword_append {word : String} (h : word ∈ continuationKeywords) {more : List Char}
    (hmore : more.head?.any isWordPart) :
    leadingContinuations.any (·.toList.isPrefixOf (word.toList ++ more)) = false ∧
      continuationKeywords.any (beginsWithWord · (word.toList ++ more)) = false := by
  have halone : ∀ w ∈ continuationKeywords, beginsWithWord w w.toList := by decide
  have hself := (beginsWithWord_append (halone word h) more).2 ⟨rfl, hmore⟩
  -- the other keywords begin with other letters
  simp only [continuationKeywords, List.mem_cons, List.not_mem_nil, or_false] at h
  rcases h with rfl | rfl | rfl
  · exact ⟨rfl, by simp only [continuationKeywords, List.any_cons, hself]; rfl⟩
  · exact ⟨rfl, by simp only [continuationKeywords, List.any_cons, hself]; rfl⟩
  · exact ⟨rfl, by simp only [continuationKeywords, List.any_cons, hself]; rfl⟩

/-- More text makes a continuation none only if it completes a step operator or a word. -/
theorem isContinuation_append {left : List Char} (h : isContinuation left = true)
    (more : List Char) : isContinuation (left ++ more) = false ↔
      (∃ ch ∈ ['+', '-'], left = [ch] ∧ more.head? = some ch) ∨
      ∃ word ∈ continuationKeywords, left = word.toList ∧ more.head?.any isWordPart := by
  have hleft : left ≠ [] := by
    rintro rfl
    cases h
  simp only [isContinuation, Bool.and_eq_true, Bool.not_eq_true', Bool.or_eq_true] at h
  obtain ⟨hnone, hbegins⟩ := h
  rw [← step_append_iff hleft hnone]
  simp only [isContinuation, Bool.and_eq_false_iff, Bool.not_eq_false', Bool.or_eq_false_iff]
  refine or_congr_right ⟨fun ⟨hleading, hword⟩ => ?_, ?_⟩
  · rcases hbegins with hop | hkeyword
    · obtain ⟨op, hop, hprefix⟩ := List.any_eq_true.1 hop
      exact absurd (isPrefixOf_append hprefix more) (List.any_eq_false.1 hleading op hop)
    · obtain ⟨word, hlisted, halone⟩ := List.any_eq_true.1 hkeyword
      have hlonger := List.any_eq_false.1 hword word hlisted
      exact ⟨word, hlisted, (beginsWithWord_append halone more).1 (by simpa using hlonger)⟩
  · rintro ⟨word, hlisted, rfl, hlonger⟩
    exact keyword_append hlisted hlonger

/-- Only the first character of what opens a comment is code if nothing comes behind it. -/
theorem eq_nil_of_kindAt {ch : Char} {rest more : List Char}
    (hnone : set.kindAt (ch :: rest) = none) {kind : GuardKind}
    (hsome : set.kindAt (ch :: (rest ++ more)) = some kind) : rest = [] := by
  cases rest with
  | nil => rfl
  | cons next rest =>
    exfalso
    suffices set.kindAt (ch :: next :: rest) = some kind by
      rw [this] at hnone
      cases hnone
    cases kind with
    | string => exact GuardSet.kindAt_string_iff.2 (GuardSet.kindAt_string_iff.1 hsome)
    | lineComment =>
      obtain ⟨hcode, hon, hch, after, hafter⟩ := GuardSet.kindAt_lineComment_iff.1 hsome
      exact GuardSet.kindAt_lineComment_iff.2
        ⟨hcode, hon, hch, rest, by rw [(List.cons.inj hafter).1]⟩
    | blockComment =>
      obtain ⟨hcode, hon, hch, after, hafter⟩ := GuardSet.kindAt_blockComment_iff.1 hsome
      exact GuardSet.kindAt_blockComment_iff.2
        ⟨hcode, hon, hch, rest, by rw [(List.cons.inj hafter).1]⟩
    | generatorComment =>
      obtain ⟨hcode, hon, hch, after, hafter, hblank⟩ :=
        GuardSet.kindAt_generatorComment_iff.1 hsome
      obtain ⟨hnext, rfl⟩ := List.cons.inj hafter
      refine GuardSet.kindAt_generatorComment_iff.2 ⟨hcode, hon, hch, rest, by rw [hnext], ?_⟩
      cases rest with
      | nil => rfl
      | cons x rest => exact hblank

/-- A keyword is code, whatever comes behind it. -/
theorem kindAt_keyword (hset : set.quotes ⊆ GuardSet.script.quotes) {word : String}
    (h : word ∈ continuationKeywords) (more : List Char) :
    set.kindAt (word.toList ++ more) = none := by
  have hfirst : ∀ word ∈ continuationKeywords, ∃ ch rest, word.toList = ch :: rest ∧
      ch ∉ GuardSet.script.quotes ∧ ch ≠ '/' ∧ ch ≠ '-' := by
    simp only [continuationKeywords, List.mem_cons, List.not_mem_nil, or_false]
    rintro _ (rfl | rfl | rfl) <;> exact ⟨_, _, rfl, by decide, by decide, by decide⟩
  obtain ⟨ch, rest, hword, hquote, hslash, hhyphen⟩ := hfirst word h
  rw [hword]
  exact GuardSet.plain_of (fun hmem => hquote (hset hmem)) hslash (.inl hhyphen) _

/-- The beginning of a head is a continuation that the head is not exactly where the
beginning ends in the middle of a token. -/
theorem beginsWithContinuation_append (hset : set.quotes ⊆ GuardSet.script.quotes)
    {head : List Char} (h : beginsWithContinuation set head = true) (more : List Char) :
    beginsWithContinuation set (head ++ more) = false ↔
      CutsToken set (afterTrivia set ⟨.start, head⟩) more := by
  rw [beginsWithContinuation_eq] at h
  have hleft : afterTrivia set ⟨.start, head⟩ ≠ [] := by
    intro hnil
    rw [hnil] at h
    cases h
  have hlonger : beginsWithContinuation set (head ++ more) =
      beginsWithContinuation set (afterTrivia set ⟨.start, head⟩ ++ more) :=
    congrArg isContinuation (afterTrivia_append hleft more .start .start)
  have hsolid := solid_afterTrivia hleft
  rw [hlonger]
  generalize afterTrivia set ⟨.start, head⟩ = left at h hleft hsolid ⊢
  obtain ⟨hcode, ch, hch, hblank⟩ | hstring := hsolid
  · obtain ⟨rest, rfl⟩ := List.head?_eq_some_iff.1 hch
    cases hkind : set.kindAt (ch :: rest ++ more) with
    | none =>
      obtain ⟨after, ahead, -⟩ := Cursor.front_eq_code hkind .start
      have hstays : beginsWithContinuation set (ch :: rest ++ more) =
          isContinuation (ch :: rest ++ more) :=
        congrArg isContinuation (afterTrivia_code ahead hblank)
      rw [hstays, isContinuation_append h]
      constructor
      · rintro (⟨x, hx, hfirst, hsecond⟩ | ⟨word, hword, hfirst, hlonger⟩)
        · exact .step hx hfirst hsecond hkind
        · exact .word hword hfirst hlonger
      · rintro (⟨hx, hfirst, hsecond, -⟩ | ⟨hword, hfirst, hlonger⟩ | ⟨-, hopens, -⟩)
        · exact .inl ⟨_, hx, hfirst, hsecond⟩
        · exact .inr ⟨_, hword, hfirst, hlonger⟩
        · rw [hkind] at hopens
          cases hopens
    | some kind =>
      obtain rfl := eq_nil_of_kindAt hcode hkind
      constructor
      · exact fun hbehind => .comment rfl hkind hbehind
      · rintro (⟨-, -, -, hnone⟩ | ⟨hword, hfirst, -⟩ | ⟨-, -, hbehind⟩)
        · rw [hkind] at hnone
          cases hnone
        · rw [hfirst, kindAt_keyword hset hword] at hkind
          cases hkind
        · exact hbehind
  · rw [not_isContinuation_of_quote hset hstring] at h
    cases h

/-- The window begins in the middle of the step operator that the longer tail ends in. -/
def CutsStep (tail longer : List Char) : Prop :=
  ∃ ch ∈ ['+', '-'], trimEnd tail = [ch] ∧ [ch, ch] <:+ trimEnd longer

/-- The end of a tail is a continuation that the tail is not exactly where the end begins in
the middle of a step operator. -/
theorem endsInContinuation_longer {tail : List Char} (h : endsInContinuation tail = true)
    (before : List Char) :
    endsInContinuation (before ++ tail) = false ↔ CutsStep tail (before ++ tail) := by
  have hsolid : trimEnd tail ≠ [] := by
    intro hnil
    simp [endsInContinuation, hnil, stepOperators, trailingContinuations] at h
  by_cases hlong : 2 ≤ (trimEnd tail).length
  · rw [endsInContinuation_append before hlong, h]
    constructor
    · rintro ⟨⟩
    · rintro ⟨ch, -, hone, -⟩
      simp [hone] at hlong
  · obtain ⟨ch, hch⟩ : ∃ ch, trimEnd tail = [ch] :=
      List.length_eq_one_iff.1 (by have := List.length_pos_iff.2 hsolid; omega)
    have hlonger : trimEnd (before ++ tail) = before ++ [ch] := by
      rw [trimEnd_append before hsolid, hch]
    have hops : trailingContinuations.any (·.toList.isSuffixOf (before ++ [ch])) = true := by
      simp only [endsInContinuation, hch, Bool.and_eq_true] at h
      obtain ⟨op, hop, hsuffix⟩ := List.any_eq_true.1 h.2
      refine List.any_eq_true.2 ⟨op, hop, List.isSuffixOf_iff_suffix.2 ?_⟩
      exact (List.isSuffixOf_iff_suffix.1 hsuffix).trans (List.suffix_append ..)
    simp only [endsInContinuation, CutsStep, hlonger, hch, hops, Bool.and_true, Bool.not_eq_false',
      List.any_eq_true, List.isSuffixOf_iff_suffix]
    constructor
    · rintro ⟨op, hop, hsuffix⟩
      obtain ⟨x, hx, hdouble⟩ := exists_of_mem_stepOperators hop
      rw [hdouble] at hsuffix
      have hlast : x = ch := by
        obtain ⟨rest, hrest⟩ := hsuffix
        simpa using congrArg List.getLast? hrest
      exact ⟨x, hx, by rw [hlast], hsuffix⟩
    · rintro ⟨x, hx, -, hsuffix⟩
      simp only [List.mem_cons, List.not_mem_nil, or_false] at hx
      rcases hx with rfl | rfl
      · exact ⟨"++", by decide, hsuffix⟩
      · exact ⟨"--", by decide, hsuffix⟩

/-! ## Divided selectors -/

theorem afterLastOpening_append (last : Option (List Char)) (before text : List Char) :
    ∃ last', afterLastOpening last (before ++ text) = afterLastOpening last' text := by
  induction before generalizing last with
  | nil => exact ⟨last, rfl⟩
  | cons c before ih => exact ih _

/-- What stands behind the last double brace does not depend on what was found before. -/
theorem afterLastOpening_eq_some {text found : List Char}
    (h : afterLastOpening none text = some found) (last : Option (List Char)) :
    afterLastOpening last text = some found := by
  induction text generalizing last with
  | nil => cases h
  | cons c text ih =>
    rw [afterLastOpening] at h ⊢
    split at h
    · next hopen => rwa [if_pos hopen]
    · next hother =>
      rw [if_neg hother]
      exact ih h last

/-- A selector that a longer tail and the same head divide is the same one. -/
theorem dividedSelector_longer {tail head moved : List Char}
    (h : dividedSelector tail head = some moved) (before : List Char) :
    dividedSelector (before ++ tail) head = some moved := by
  unfold dividedSelector at h ⊢
  cases hopen : afterLastOpening none tail with
  | none => simp [hopen] at h
  | some found =>
    obtain ⟨last, hlast⟩ := afterLastOpening_append none before tail
    rw [hlast, afterLastOpening_eq_some hopen, ← hopen]
    exact h

/-- What moves over to the first text begins the second one. -/
theorem moved_begins {tail head moved : List Char}
    (h : dividedSelector tail head = some moved) : moved ≠ [] ∧ moved <+: head := by
  have hsplit : head.takeWhile isSelectorChar ++
      head.drop (head.takeWhile isSelectorChar).length = head :=
    List.prefix_iff_eq_append.1 (List.takeWhile_prefix _)
  have hprefix : ∀ {u}, u <+: head.drop (head.takeWhile isSelectorChar).length →
      head.takeWhile isSelectorChar ++ u <+: head := fun ⟨v, hv⟩ =>
    ⟨v, by rw [List.append_assoc, hv, hsplit]⟩
  simp only [dividedSelector] at h
  split at h
  · split at h
    · next text hrest =>
      cases h
      rw [List.append_assoc]
      refine ⟨by simp, hprefix ?_⟩
      rw [hrest]
      exact (List.prefix_append_right_inj ['}', '}', '-', '>']).2 (List.takeWhile_prefix _)
    · next text _ hrest =>
      cases h
      refine ⟨by simp, hprefix ?_⟩
      rw [hrest]
      exact List.prefix_append ['}', '}'] text
    · cases h
  · cases h

namespace Fragment

variable {w w' : Nat} {f g : Fragment}

theorem between_eq_keep_iff (window : Nat) : Boundary.between window f g = .keep ↔
    trim g.content ≠ [] ∧ Divided window f g ∧
      endsInContinuation (lastBytes window f.content) = false ∧
        beginsWithContinuation g.context.guardSet (takeBytes window g.content) = false := by
  by_cases hblank : trim g.content = []
  · simp [between_of_blank hblank, hblank]
  · cases hdivided : dividedSelector (lastBytes window f.content) (takeBytes window g.content) with
    | some moved =>
      rw [between_of_divided hblank hdivided]
      split <;> simp [Divided, hdivided]
    | none =>
      rw [between_of_whole hblank hdivided]
      simp [Divided, hdivided, hblank]

theorem dividedSelector_of_shift {window : Nat} {moved : List Char}
    (h : Boundary.between window f g = .shift moved) :
    dividedSelector (lastBytes window f.content) (takeBytes window g.content) = some moved := by
  by_cases hblank : trim g.content = []
  · rw [between_of_blank hblank] at h
    cases h
  · cases hdivided : dividedSelector (lastBytes window f.content) (takeBytes window g.content) with
    | some found =>
      rw [between_of_divided hblank hdivided] at h
      split at h <;> cases h
      rfl
    | none => exact absurd h (Divided.ne_shift hdivided moved)

theorem stitch_eq_keep_iff (hnext : f.precedes g) (window : Nat) :
    f.stitch window g = (f, some g) ↔ Boundary.between window f g = .keep := by
  unfold stitch
  rw [if_pos hnext]
  cases hbetween : Boundary.between window f g with
  | keep => simp
  | merge => simp
  | shift moved =>
    obtain ⟨hmoved, -⟩ := moved_begins (dividedSelector_of_shift hbetween)
    have hlonger : f.content ++ moved ≠ f.content := by simpa using hmoved
    simp only [reduceCtorEq, iff_false]
    exact fun hsame => hlonger (congrArg (fun r => r.1.content) hsame)

/-- The smaller window cut a token and joined for nothing else, and the larger one shows
nothing new that speaks for joining. -/
structure Misread (w w' : Nat) (f g : Fragment) : Prop where
  cut : CutsStep (lastBytes w f.content) (lastBytes w' f.content) ∨
    CutsToken g.context.guardSet (afterTrivia g.context.guardSet ⟨.start, takeBytes w g.content⟩)
      ((takeBytes w' g.content).drop (takeBytes w g.content).length)
  /-- The first text did not end in a continuation, but in half of a step operator. -/
  tail : endsInContinuation (lastBytes w f.content) = true →
    CutsStep (lastBytes w f.content) (lastBytes w' f.content)
  /-- The second text did not begin with a continuation, but with what was left of a token. -/
  head : beginsWithContinuation g.context.guardSet (takeBytes w g.content) = true →
    CutsToken g.context.guardSet (afterTrivia g.context.guardSet ⟨.start, takeBytes w g.content⟩)
      ((takeBytes w' g.content).drop (takeBytes w g.content).length)
  noTail : endsInContinuation (lastBytes w f.content) = false →
    endsInContinuation (lastBytes w' f.content) = false
  noHead : beginsWithContinuation g.context.guardSet (takeBytes w g.content) = false →
    beginsWithContinuation g.context.guardSet (takeBytes w' g.content) = false
  whole : Divided w' f g
  text : trim g.content ≠ []

/-- A selector that moves over as the whole second text does so in every larger window. -/
theorem divided_of_whole {moved : List Char}
    (hdivided : dividedSelector (lastBytes w f.content) (takeBytes w g.content) = some moved)
    (hwhole : g.content.length ≤ moved.length) (hle : w ≤ w') : ¬ Divided w' f g := by
  obtain ⟨before, hbefore⟩ := lastBytes_mono hle f.content
  -- both windows hold all of the second text
  have hfits := takeBytes_prefix w g.content
  have hsmall : takeBytes w g.content = g.content :=
    hfits.eq_of_length_le (hwhole.trans (moved_begins hdivided).2.length_le)
  have hlarge : takeBytes w' g.content = g.content := by
    have hlength := (takeBytes_mono hle g.content).length_le
    have hfits' := takeBytes_prefix w' g.content
    rw [hsmall] at hlength
    exact hfits'.eq_of_length_le hlength
  have hlonger := dividedSelector_longer hdivided before
  rw [hbefore, hsmall, ← hlarge] at hlonger
  simp [Divided, hlonger]

/-- Of what a smaller window joins, a larger one keeps apart only what was misread. -/
theorem keeps_iff_misread (hnext : f.precedes g) (hle : w ≤ w') (hjoins : f.Joins w g) :
    f.stitch w' g = (f, some g) ↔ f.Misread w w' g := by
  rw [stitch_eq_keep_iff hnext, between_eq_keep_iff]
  rw [joins_iff_between hnext] at hjoins
  obtain ⟨before, hbefore⟩ := lastBytes_mono hle f.content
  obtain ⟨more, hmore⟩ := takeBytes_mono hle g.content
  have hrest : more = (takeBytes w' g.content).drop (takeBytes w g.content).length := by
    rw [← hmore, List.drop_left]
  have htail : endsInContinuation (lastBytes w f.content) = true →
      (endsInContinuation (lastBytes w' f.content) = false ↔
        CutsStep (lastBytes w f.content) (lastBytes w' f.content)) := fun h => by
    rw [← hbefore]
    exact endsInContinuation_longer h before
  have hhead : beginsWithContinuation g.context.guardSet (takeBytes w g.content) = true →
      (beginsWithContinuation g.context.guardSet (takeBytes w' g.content) = false ↔
        CutsToken g.context.guardSet
          (afterTrivia g.context.guardSet ⟨.start, takeBytes w g.content⟩)
          ((takeBytes w' g.content).drop (takeBytes w g.content).length)) := fun h => by
    rw [← hrest, ← hmore]
    exact beginsWithContinuation_append g.context.quotes_subset h more
  by_cases hblank : trim g.content = []
  · exact iff_of_false (fun h => h.1 hblank) fun h => h.text hblank
  · cases hdivided : dividedSelector (lastBytes w f.content) (takeBytes w g.content) with
    | some moved =>
      rw [between_of_divided hblank hdivided] at hjoins
      have hwhole : g.content.length ≤ moved.length := by
        split at hjoins
        · cases hjoins
        · next h => exact Nat.le_of_not_lt h
      have hlarger := divided_of_whole hdivided hwhole hle
      exact iff_of_false (fun h => hlarger h.2.1) fun h => hlarger h.whole
    | none =>
      rw [between_of_whole hblank hdivided] at hjoins
      have hreason : endsInContinuation (lastBytes w f.content) = true ∨
          beginsWithContinuation g.context.guardSet (takeBytes w g.content) = true := by
        by_contra hnone
        rw [if_neg hnone] at hjoins
        cases hjoins
      constructor
      · rintro ⟨-, hwhole, hends, hbegins⟩
        have hstep := fun h => (htail h).1 hends
        have htoken := fun h => (hhead h).1 hbegins
        exact ⟨hreason.imp hstep htoken, hstep, htoken, fun _ => hends, fun _ => hbegins, hwhole,
          hblank⟩
      · intro h
        refine ⟨hblank, h.whole, ?_, ?_⟩
        · cases hends : endsInContinuation (lastBytes w f.content) with
          | true => exact (htail hends).2 (h.tail hends)
          | false => exact h.noTail hends
        · cases hbegins : beginsWithContinuation g.context.guardSet (takeBytes w g.content) with
          | true => exact (hhead hbegins).2 (h.head hbegins)
          | false => exact h.noHead hbegins

/-- A word that begins like a keyword, with a window that ends behind the keyword. -/
theorem keeps_iff_misread_word :
    let frame : Frame := ⟨.scriptLocal, 1, [.global], 1⟩
    let p : Position := ⟨4, 1, 5⟩
    let f := frame.fragment false 0 "a();".toList .start p
    let g := frame.fragment false 1 "\nelsewhere();".toList p ⟨17, 2, 13⟩
    f.precedes g ∧ f.Joins 5 g ∧ f.stitch 64 g = (f, some g) ∧ f.Misread 5 64 g := by
  intro frame p f g
  have hnext : f.precedes g := by decide
  have hjoins : f.Joins 5 g := by decide +kernel
  have hkeeps : f.stitch 64 g = (f, some g) := by decide +kernel
  exact ⟨hnext, hjoins, hkeeps, (keeps_iff_misread hnext (by decide) hjoins).1 hkeeps⟩

end Fragment

end Polyglot
