-- SUMMARY: A declaration header ends with its line, except where an origin body is found behind it.
import Polyglot.Proofs.Growth
import Polyglot.Proofs.Property

/-!
# Headers and line ends

A declaration header waits for its body. The line end decides that there is none, unless
an opening brace is the next code. The pass goes by this for every keyword
(`Outline.walks_to_resumption`), but an origin declaration looks for its body first, across
line ends and without regard to comments. So exactly the header that this look finds a body
for is not ended by its line (`Outline.endsHeader_iff`).
-/

namespace Polyglot

namespace Cursor

/-! ## Where text goes on -/

/-- From one cursor to another there are only white space and complete comments. -/
inductive Idle (set : GuardSet) : Cursor → Cursor → Prop where
  | refl (c : Cursor) : Idle set c c
  | blank {c d : Cursor} {ch : Char} {after : c.Later} (ahead : c.front set = .code ch after)
      (blank : isBlank ch) (more : Idle set after.cursor d) : Idle set c d
  | comment {c d : Cursor} {kind : GuardKind} {after : c.Later}
      (ahead : c.front set = .region kind after) (comment : kind ≠ .string)
      (more : Idle set after.cursor d) : Idle set c d

/-- What lies ahead is neither white space nor a comment, and no opening brace. -/
inductive Resumes (set : GuardSet) (c : Cursor) : Prop where
  | code {ch : Char} {after : c.Later} (ahead : c.front set = .code ch after)
      (solid : isBlank ch = false) (noBrace : ch ≠ '{')
  | string {after : c.Later} (ahead : c.front set = .region .string after)
  | openString {issue : GuardIssue} {atEnd : c.Later}
      (ahead : c.front set = .openRegion issue atEnd) (string : issue.region ≠ .blockComment)

/-- Outside of strings and comments there is no semicolon and no brace from `c` to the end of
its line, and what comes next in the lines behind is no opening brace. It stands at `e`. -/
structure LineEnds (set : GuardSet) (c e : Cursor) : Prop where
  line : ∃ code feed, c.Passes set code feed ∧ (∀ ch ∈ code, ch ∉ ['\n', ';', '{', '}']) ∧
    ∃ after, feed.front set = .code '\n' after ∧ after.cursor.Idle set e
  next : e.Resumes set

variable {set : GuardSet} {c d e : Cursor}

theorem Idle.reaches (h : c.Idle set d) : c.Reaches d := by
  induction h with
  | refl c => exact .refl c
  | @blank _ _ _ after _ _ _ ih => exact after.reaches.trans ih
  | @comment _ _ _ after _ _ _ ih => exact after.reaches.trans ih

theorem LineEnds.strictlyReaches (h : c.LineEnds set e) : c.StrictlyReaches e := by
  obtain ⟨code, feed, hpass, -, after, -, hidle⟩ := h.line
  exact hpass.reaches.trans_strictly (after.strictlyReaches.trans_reaches hidle.reaches)

end Cursor

namespace Outline

variable {options : Options} {o o' p q : Outline} {c d e : Cursor}

/-! ## Walks -/

/-- From one state and place the pass comes to another, step by step. -/
inductive Walks (options : Options) : Outline → Cursor → Outline → Cursor → Prop where
  | refl (o : Outline) (c : Cursor) : Walks options o c o c
  | step {o o' p : Outline} {c d : Cursor} {next : c.Later}
      (onward : o.step options c = .onward o' next) (more : Walks options o' next.cursor p d) :
      Walks options o c p d

theorem Walks.trans (h : Walks options o c o' d) (k : Walks options o' d p e) :
    Walks options o c p e := by
  induction h with
  | refl => exact k
  | step onward _ ih => exact .step onward (ih k)

theorem Walks.reaches (h : Walks options o c p d) : c.Reaches d := by
  induction h with
  | refl o c => exact .refl c
  | @step _ _ _ _ _ next _ _ ih => exact next.reaches.trans ih

/-- The pass from the earlier place is the pass from the later one. -/
theorem Walks.walk_eq (h : Walks options o c p d) : o.walk options c = p.walk options d := by
  induction h with
  | refl => rfl
  | step onward _ ih =>
    rw [walk, onward]
    exact ih

theorem Walks.grows (h : Walks options o c p d) : o.Grows p := by
  induction h with
  | refl o c => exact .refl o
  | @step o _ _ c _ _ onward _ ih =>
    have hafter := (steps options o c).after
    rw [onward] at hafter
    exact hafter.trans ih

/-! ## Steps within a line -/

theorem step_comment {kind : GuardKind} {after : c.Later}
    (ahead : c.front (templateSet options) = .region kind after) (comment : kind ≠ .string)
    (o : Outline) : o.step options c = .onward o after := by
  rw [step, ahead]
  cases kind with
  | string => exact absurd rfl comment
  | _ => rfl

theorem step_blank {ch : Char} {after : c.Later}
    (ahead : c.front (templateSet options) = .code ch after) (blank : isBlank ch) (o : Outline) :
    o.step options c = .onward { o with newline := o.newline || ch = '\n' } after := by
  rw [step, ahead]
  simp only [blank, if_true]

theorem beforeCode_of_line (hline : o.newline = false) (isBrace : Bool) (c : Cursor) :
    o.beforeCode isBrace c = o := by
  obtain ⟨stack, mark, run, head, newline, emitted, issued, log⟩ := o
  subst hline
  rfl

/-- Behind the first word of a line, a character other than braces and semicolons changes
nothing. -/
theorem code_of_other {ch : Char} (after : c.Later) (hhead : o.head = .other)
    (hline : o.newline = false) (hch : ch ∉ ['\n', ';', '{', '}']) :
    o.code options c ch after = .onward o after := by
  simp only [List.mem_cons, List.not_mem_nil, or_false, not_or] at hch
  obtain ⟨-, hsemi, hopen, hclose⟩ := hch
  have hother : ({ o with head := .other } : Outline) = o := by
    rw [← hhead]
  unfold code
  rw [beforeCode_of_line hline]
  split
  · exact absurd rfl hopen
  · exact absurd rfl hclose
  · exact absurd rfl hsemi
  · simp only [hhead, reduceCtorEq, decide_false, Bool.false_and, Bool.false_eq_true, if_false,
      hother]

/-- So the state is the same all along the line. -/
theorem walks_line {code : List Char} (hhead : o.head = .other) (hline : o.newline = false)
    (h : c.Passes (templateSet options) code d) (hcode : ∀ ch ∈ code, ch ∉ ['\n', ';', '{', '}']) :
    Walks options o c o d := by
  have hother : ({ o with head := .other } : Outline) = o := by
    rw [← hhead]
  induction h with
  | refl c => exact .refl o c
  | @region c d kind after code ahead more ih =>
    have hstep : o.step options c = .onward o after := by
      by_cases hstring : kind = .string
      · subst hstring
        rw [step, ahead]
        simp only [beforeCode_of_line hline, hother]
      · exact step_comment ahead hstring o
    exact .step hstep (ih hcode)
  | @code c d ch after code ahead more ih =>
    obtain ⟨hch, hmore⟩ := List.forall_mem_cons.1 hcode
    have hstep : o.step options c = .onward o after := by
      by_cases hblank : isBlank ch
      · rw [step_blank ahead hblank]
        have hsame : ({ o with newline := o.newline || decide (ch = '\n') } : Outline) = o := by
          have hfeed : ch ≠ '\n' := fun heq => hch (by simp [heq])
          rw [decide_eq_false hfeed, Bool.or_false]
        rw [hsame]
      · rw [step, ahead]
        simp only [hblank, Bool.false_eq_true, if_false]
        exact code_of_other after hhead hline hch
    exact .step hstep (ih hmore)

theorem walks_idle (hline : o.newline = true) (h : c.Idle (templateSet options) d) :
    Walks options o c o d := by
  induction h with
  | refl c => exact .refl o c
  | @blank c d ch after ahead blank more ih =>
    have hstep : o.step options c = .onward o after := by
      rw [step_blank ahead blank, hline, Bool.true_or, ← hline]
    exact .step hstep ih
  | @comment c d kind after ahead comment more ih =>
    exact .step (step_comment ahead comment o) ih

/-- Where the text goes on behind the line end, the line feed is still to be dealt with. -/
theorem walks_to_resumption (hhead : o.head = .other) (hline : o.newline = false)
    (h : c.LineEnds (templateSet options) e) : Walks options o c { o with newline := true } e := by
  obtain ⟨code, feed, hpass, hcode, after, hfeed, hidle⟩ := h.line
  have hstep : o.step options feed = .onward { o with newline := true } after := by
    rw [step_blank hfeed rfl]
    simp
  exact (walks_line hhead hline hpass hcode).trans (.step hstep (walks_idle rfl hidle))

/-! ## Headers -/

/-- The pass is at `e`, in the header of a context that was entered at `begun` from the stack
`around`. It ends the header there, and goes on in the context around. -/
structure EndsHeader (options : Options) (around : Stack) (context : Context) (begun : Position)
    (p : Outline) (e : Cursor) : Prop where
  header : p.stack = around.enter context .header begun
  popped : (p.beforeCode false e).stack.entries = around.entries
  /-- The text from here on has the context around, and begins anew if it is another one. -/
  run : (p.beforeCode false e).run.context = around.current
  cut : around.current ≠ context → (p.beforeCode false e).mark = e
  goesOn : p.step options e = (p.beforeCode false e).step options e

theorem newline_beforeCode (o : Outline) (c : Cursor) : (o.beforeCode false c).newline = false := by
  unfold beforeCode
  split <;> rfl

/-- What is done in front of code is done once. -/
theorem step_beforeCode (h : e.Resumes (templateSet options)) (o : Outline) :
    (o.beforeCode false e).step options e = o.step options e := by
  have honce := beforeCode_of_line (o.newline_beforeCode e) false e
  cases h with
  | code ahead solid noBrace =>
    unfold step
    rw [ahead]
    simp only [solid, Bool.false_eq_true, if_false, code, decide_eq_false noBrace, honce]
  | string ahead =>
    unfold step
    rw [ahead]
    simp only [honce]
  | openString ahead string =>
    unfold step
    rw [ahead]
    simp only [if_neg string, honce]

theorem run_changeStack (o : Outline) (c : Cursor) (stack : Stack) :
    (o.changeStack c stack).run.context = stack.current := by
  by_cases hsame : stack.current = o.run.context
  · rw [changeStack_of_eq o c hsame]
    exact hsame.symm
  · rw [changeStack_of_ne o c hsame]
    rfl

theorem mark_changeStack (c : Cursor) {stack : Stack} (h : stack.current ≠ o.run.context) :
    (o.changeStack c stack).mark = c := by
  rw [changeStack_of_ne o c h]

/-- A header that waits at a line end is ended where the text goes on. -/
theorem endsHeader_of_waiting {around : Stack} {context : Context} {begun : Position}
    (hstack : p.stack = around.enter context .header begun) (hrun : p.run.context = context)
    (hline : p.newline = true) (h : e.Resumes (templateSet options)) :
    EndsHeader options around context begun p e := by
  have hbefore : p.beforeCode false e = { p.changeStack e p.stack.endHeader.2 with
      newline := false, head := .start } := by
    unfold beforeCode
    simp only [hline, Bool.not_false, Bool.and_self, if_true]
  have hend : p.stack.endHeader.2 = ⟨around.entries, around.lastScope + 1⟩ := by
    rw [hstack]
    rfl
  have hcurrent : (⟨around.entries, around.lastScope + 1⟩ : Stack).current = around.current := rfl
  refine ⟨hstack, ?_, ?_, ?_, (step_beforeCode h p).symm⟩
  · rw [hbefore, hend]
    change (p.changeStack e _).stack.entries = around.entries
    rw [(changeStack_frame p e _).1]
  · rw [hbefore, hend]
    exact run_changeStack p e _
  · intro hne
    rw [hbefore, hend]
    exact mark_changeStack e (by rwa [hcurrent, hrun])

variable {after header : c.Later} {context : Context}

theorem code_bracket (start : (o.beforeCode false c).head = .start) :
    o.code options c '[' after = declaration options (o.beforeCode false c) c after := by
  unfold code
  simp [start]

theorem step_bracket (ahead : c.front (templateSet options) = .code '[' after)
    (start : (o.beforeCode false c).head = .start) :
    o.step options c = declaration options (o.beforeCode false c) c after := by
  rw [step, ahead]
  simp only [show isBlank '[' = false from rfl, Bool.false_eq_true, if_false, code_bracket start]

/-- The declaration is one of an origin, and behind its bracket a body is found. -/
def FindsBody (context : Context) (header : c.Later) : Prop :=
  context = .originBody ∧ (Cursor.originBody? header).isSome

theorem not_findsBody_iff : ¬ FindsBody context header ↔
    (if context = .originBody then Cursor.originBody? header else none) = none := by
  unfold FindsBody
  by_cases horigin : context = .originBody <;> simp [horigin]

/-- The header of a declaration without an origin body is ended by its line. -/
theorem endsHeader_of_not_findsBody (ahead : c.front (templateSet options) = .code '[' after)
    (start : (o.beforeCode false c).head = .start)
    (declared : Cursor.declaration? after = some (context, header))
    (line : header.cursor.LineEnds (templateSet options) e) (h : ¬ FindsBody context header) :
    ∃ p, Walks options o c p e ∧
      EndsHeader options (o.beforeCode false c).stack context c.position p e := by
  let before : Outline := { o.beforeCode false c with head := .other }
  let entered := before.changeStack c (before.stack.enter context .header c.position)
  have hstep : o.step options c = .onward entered header := by
    rw [step_bracket ahead start, declaration, declared]
    simp only [not_findsBody_iff.1 h]
    rfl
  obtain ⟨hstack, hhead, hline, -⟩ :=
    changeStack_frame before c (before.stack.enter context .header c.position)
  have hwalk := walks_to_resumption (o := entered) hhead
    (hline.trans (o.newline_beforeCode c)) line
  refine ⟨_, .step hstep hwalk, endsHeader_of_waiting hstack ?_ rfl line.next⟩
  exact run_changeStack before c _

/-- If an origin body is found, the pass reads it, and two scopes are used up. -/
theorem lastScope_of_findsBody (ahead : c.front (templateSet options) = .code '[' after)
    (start : (o.beforeCode false c).head = .start)
    (declared : Cursor.declaration? after = some (context, header))
    (h : FindsBody context header) {next : c.Later} (onward : o.step options c = .onward o' next) :
    (o.beforeCode false c).stack.lastScope + 2 = o'.stack.lastScope := by
  obtain ⟨rfl, hbody⟩ := h
  obtain ⟨⟨raw, brace⟩, hbody⟩ := Option.isSome_iff_exists.1 hbody
  have hsign : declarationSign? after = some (.block raw brace.cursor) := by
    simp [declarationSign?, declared, hbody]
  have hacts : Acts options (o.beforeCode false c) c _ _ := acts_declaration start after
  rw [hsign, Option.toList_some, ← step_bracket ahead start, onward] at hacts
  generalize hsigns : [Sign.block raw brace.cursor] = signs at hacts
  generalize hflow : Flow.onward o' next = flow at hacts
  cases hacts with
  | pass | openBody | openElement | closeBrace | semicolon | header => cases hsigns
  | block _ keyword => rw [start] at keyword; cases keyword
  | originStop => cases hflow
  | @origin raw' o₁ brace' next' _ _ _ embeds =>
    cases hflow
    obtain ⟨entry, -, hopened, -⟩ := (o.beforeCode false c).openOrigin_frame c brace'.cursor
    have hread : o₁.stack.lastScope = (o.beforeCode false c).stack.lastScope + 2 := by
      cases embeds with
      | blank => simp only [hopened]
      | body => simp only [hopened]
    rw [(changeStack_frame o₁ next'.cursor _).1, (o₁.stack.exit_suffix .originBody).2, hread]

/-- Between the bracket of an origin and the brace of its body there are only white space, one
at sign and words. -/
theorem along_originBody? {raw : Context} {brace : c.Later}
    (h : Cursor.originBody? header = some (raw, brace)) :
    header.cursor.Along (fun ch => isBlank ch ∨ ch = '@' ∨ isWordPart ch) brace.cursor := by
  have hblanks : ∀ d : Cursor, d.Along (fun ch => isBlank ch ∨ ch = '@' ∨ isWordPart ch)
      (d.eatWhile isBlank) := Cursor.along_eatWhile fun ch hch => .inl hch
  have hword : ∀ d : Cursor, d.Along (fun ch => isBlank ch ∨ ch = '@' ∨ isWordPart ch)
      (d.eatWhile isWordPart) := Cursor.along_eatWhile fun ch hch => .inr (.inr hch)
  unfold Cursor.originBody? at h
  simp only at h
  split at h
  · cases h
  · next sign hsign =>
    have hat : (header.cursor.eatWhile isBlank).Along
        (fun ch => isBlank ch ∨ ch = '@' ∨ isWordPart ch) sign :=
      ⟨_, Cursor.consumes_eat rfl hsign, fun ch hch => .inr (.inl (List.mem_singleton.1 hch))⟩
    have hgap := (((hblanks _).trans hat).trans (hword _)).trans (hblanks _)
    simp only [Option.ite_none_right_eq_some, Option.some.injEq, Prod.mk.injEq] at h
    obtain ⟨-, -, rfl⟩ := h
    split
    · exact (hgap.trans (hword _)).trans (hblanks _)
    · exact hgap

/-- A header in whose line there is no semicolon and no brace, and behind it no opening brace,
is ended where the text goes on behind the line, and what follows belongs to the context
around; except for the header of an origin that finds a body. There the pass goes on at the
brace of the body. It lies behind white space, line ends too, and words alone. -/
theorem endsHeader_iff (ahead : c.front (templateSet options) = .code '[' after)
    (start : (o.beforeCode false c).head = .start)
    (declared : Cursor.declaration? after = some (context, header))
    (line : header.cursor.LineEnds (templateSet options) e) :
    ((∃ p, Walks options o c p e ∧
        EndsHeader options (o.beforeCode false c).stack context c.position p e) ↔
      ¬ FindsBody context header) ∧
    ∀ raw brace, context = .originBody → Cursor.originBody? header = some (raw, brace) →
      Sign.block raw brace.cursor ∈ o.signsAt options c ∧ brace.cursor.rest.head? = some '{' ∧
      header.cursor.Along (fun ch => isBlank ch ∨ ch = '@' ∨ isWordPart ch) brace.cursor := by
  refine ⟨⟨?_, fun h => endsHeader_of_not_findsBody ahead start declared line h⟩, ?_⟩
  · rintro ⟨p, hwalk, hends⟩ hfinds
    have hlater := header.strictlyReaches.trans_reaches line.strictlyReaches.reaches
    cases hwalk with
    | refl => exact Nat.lt_irrefl _ hlater.offset_lt
    | step onward more =>
      -- the scope of the header is no longer the last one
      have hgrows := more.grows.scope
      rw [hends.header, ← lastScope_of_findsBody ahead start declared hfinds onward] at hgrows
      exact Nat.not_succ_le_self _ hgrows
  · rintro raw brace rfl hbody
    obtain ⟨-, hbrace⟩ := originBody?_spec hbody
    refine ⟨?_, hbrace, along_originBody? hbody⟩
    have hsign : (o.beforeCode false c).codeSign? options c '[' after =
        some (.block raw brace.cursor) := by
      rw [codeSign?_of_ne (by decide) (by decide) (by decide), start]
      simp [declarationSign?, declared, hbody]
    rw [signsAt, ahead]
    exact List.mem_append_right _ (by simpa using hsign)

/-- The use of an origin in front of an element is not ended by its line: the pass takes the
brace of the element for that of an origin body. -/
theorem endsHeader_iff_origin : ∃ c d e : Cursor,
    c.rest = "[Origin] @Html\nbox \x7b hi \x7d".toList ∧
    d.rest = " @Html\nbox \x7b hi \x7d".toList ∧ e.rest = "box \x7b hi \x7d".toList ∧
    d.LineEnds (templateSet .standard) e ∧
    ¬ ∃ p, Walks .standard (initial c .empty) c p e ∧
      EndsHeader .standard .empty .originBody .start p e := by
  let c : Cursor := ⟨.start, "[Origin] @Html\nbox \x7b hi \x7d".toList⟩
  let d : Cursor := ⟨⟨8, 1, 9⟩, " @Html\nbox \x7b hi \x7d".toList⟩
  let feed : Cursor := ⟨⟨14, 1, 15⟩, "\nbox \x7b hi \x7d".toList⟩
  let e : Cursor := ⟨⟨15, 2, 1⟩, "box \x7b hi \x7d".toList⟩
  have hplain : ∀ ch ∈ " @Html".toList,
      (!(['"', '\'', '/', '-', '\n', ';', '\x7b', '\x7d'].contains ch)) = true :=
    List.all_eq_true.1 (by decide)
  simp only [Bool.not_eq_true', List.contains_eq_mem, decide_eq_false_iff_not, List.mem_cons,
    List.not_mem_nil, or_false, not_or] at hplain
  have hread : d.Passes (templateSet .standard) " @Html".toList feed := by
    refine Cursor.Consumes.passes_of_plain ⟨by decide, by decide⟩ fun ch hch => ?_
    obtain ⟨hdouble, hsingle, hslash, hhyphen, -⟩ := hplain ch hch
    exact GuardSet.plain_of (by simp [templateSet, GuardSet.withGeneratorComments,
      GuardSet.template, hdouble, hsingle]) hslash (.inl hhyphen)
  have hcode : ∀ ch ∈ " @Html".toList, ch ∉ ['\n', ';', '\x7b', '\x7d'] := by
    intro ch hch
    obtain ⟨-, -, -, -, hfeed, hsemi, hopen, hclose⟩ := hplain ch hch
    simp [hfeed, hsemi, hopen, hclose]
  have hline : d.LineEnds (templateSet .standard) e :=
    ⟨⟨_, feed, hread, hcode, _, rfl, .refl e⟩, .code rfl rfl (by decide)⟩
  refine ⟨c, d, e, rfl, rfl, rfl, hline, fun h => ?_⟩
  exact (endsHeader_iff rfl rfl rfl hline).1.1 h ⟨rfl, rfl⟩

end Outline

end Polyglot
