-- SUMMARY: A boundary moved behind a selector severs its method only at the window or a dollar.
import Polyglot.Proofs.Reslice

/-!
# Divided compounds

A selector in double braces and the method behind its arrow are one compound. When a boundary
divides the selector, its rest is moved to the first text, and the method is moved with it as
far as the window shows it and as far as its name has no dollar sign. `Severs` says when
something of the method stays behind, and `Fragment.takesCompound_of_shift` that it stays behind
for no other reason.
-/

namespace Polyglot

variable {p : Char → Bool} {text rest shown name left : List Char}

/-! ## The method behind a selector -/

/-- The arrow that a text begins with and the name behind it, which is of a class of characters. -/
def methodCall (p : Char → Bool) (text : List Char) : List Char :=
  if ['-', '>'].isPrefixOf text then ['-', '>'] ++ (text.drop 2).takeWhile p else []

/-- Of the text behind a selector a window shows some, and something of the method stays behind. -/
inductive Severs (rest shown : List Char) : Prop
  /-- The window ends in front of the arrow, or between its two characters. -/
  | arrow (method : ['-', '>'] <+: rest) (short : shown.length < 2)
  /-- The window ends in the name. -/
  | window {name : List Char} {next : Char} (method : ['-', '>'] ++ name ++ [next] <+: rest)
      (isName : ∀ ch ∈ name, isMethodChar ch) (goesOn : isNamePart next)
      (short : shown = ['-', '>'] ++ name)
  /-- The name goes on with a dollar sign. -/
  | dollar {name : List Char} (method : ['-', '>'] ++ name ++ ['$'] <+: rest)
      (isName : ∀ ch ∈ name, isMethodChar ch) (seen : ['-', '>'] ++ name <+: shown)

theorem methodCall_arrow (p : Char → Bool) (text : List Char) :
    methodCall p ('-' :: '>' :: text) = '-' :: '>' :: text.takeWhile p := rfl

theorem takeWhile_eq_nil_iff : text.takeWhile p = [] ↔ text.head?.any p = false := by
  cases text with
  | nil => simp
  | cons ch text => cases hch : p ch <;> simp [hch]

/-- Behind a name that all of is of a class, the method goes on with what is left. -/
theorem methodCall_append (hname : ∀ ch ∈ name, p ch) (left : List Char) :
    methodCall p (['-', '>'] ++ name ++ left) = ['-', '>'] ++ name ++ left.takeWhile p := by
  rw [List.append_assoc, List.append_assoc, ← List.takeWhile_append_of_pos hname]
  rfl

theorem methodCall_of_not (h : ¬ ['-', '>'] <+: text) : methodCall p text = [] := by
  rw [methodCall, if_neg (List.isPrefixOf_iff_prefix.not.2 h)]

/-- An arrow is taken whole or not at all. -/
theorem length_methodCall_ne_one (p : Char → Bool) (text : List Char) :
    (methodCall p text).length ≠ 1 := by
  unfold methodCall
  split <;> simp

theorem isNamePart_iff {ch : Char} : isNamePart ch ↔ isMethodChar ch ∨ ch = '$' := by
  simp [isNamePart, isMethodChar]

/-- What is shown of a method: its name goes on to the end of the window, or to a character
that is none of a method. -/
theorem exists_shown (h : shown <+: rest) (harrow : ['-', '>'] <+: shown) :
    ∃ name left, methodCall isMethodChar shown = ['-', '>'] ++ name ∧
      rest = ['-', '>'] ++ name ++ left ∧ (∀ ch ∈ name, isMethodChar ch) ∧
      ['-', '>'] ++ name <+: shown ∧
      (shown = ['-', '>'] ++ name ∨ ∃ ch ∈ left.head?, isMethodChar ch = false) := by
  obtain ⟨text, rfl⟩ := harrow
  obtain ⟨more, rfl⟩ := h
  have hsplit := List.takeWhile_append_dropWhile (p := isMethodChar) (l := text)
  refine ⟨text.takeWhile isMethodChar, text.dropWhile isMethodChar ++ more,
    methodCall_arrow isMethodChar text, ?_,
    fun ch hch => List.all_eq_true.1 List.all_takeWhile ch hch,
    (List.prefix_append_right_inj _).2 (List.takeWhile_prefix _), ?_⟩
  · rw [List.append_assoc _ _ (_ ++ more), ← List.append_assoc (text.takeWhile _), hsplit,
      List.append_assoc]
  · cases hleft : text.dropWhile isMethodChar with
    | nil =>
      rw [hleft, List.append_nil] at hsplit
      exact .inl (by rw [hsplit])
    | cons ch left =>
      have hhead := List.head?_dropWhile_not isMethodChar text
      rw [hleft] at hhead
      exact .inr ⟨ch, rfl, by simpa using hhead⟩

/-- The name that is shown is told by how it stops. -/
theorem methodCall_of_stops (hname : ∀ ch ∈ name, isMethodChar ch) (h : shown <+: rest)
    (hseen : ['-', '>'] ++ name <+: shown)
    (hstop : shown = ['-', '>'] ++ name ∨ ['-', '>'] ++ name ++ ['$'] <+: rest) :
    methodCall isMethodChar shown = ['-', '>'] ++ name := by
  obtain ⟨more, rfl⟩ := hseen
  have hmore : more.head?.any isMethodChar = false := by
    rcases hstop with hshown | hdollar
    · rw [List.append_right_eq_self.1 hshown]
      rfl
    · cases more with
      | nil => rfl
      | cons ch more =>
        obtain ⟨left, rfl⟩ := h
        rw [List.append_assoc _ (ch :: more), List.prefix_append_right_inj] at hdollar
        obtain rfl : '$' = ch := (List.cons_prefix_cons.1 hdollar).1
        rfl
  rw [methodCall_append hname, takeWhile_eq_nil_iff.2 hmore, List.append_nil]

/-- Behind an arrow that the window shows, a part of a name stays behind exactly if the method
is severed. -/
theorem severs_iff_of_arrow (h : shown <+: rest) (harrow : ['-', '>'] <+: shown) :
    Severs rest shown ↔
      (rest.drop (methodCall isMethodChar shown).length).head?.any isNamePart := by
  constructor
  · intro hsevers
    cases hsevers with
    | arrow method short => exact absurd harrow.length_le (Nat.not_le.2 short)
    | @window name next method isName goesOn short =>
      have hcall := methodCall_of_stops isName h (short ▸ List.prefix_rfl) (.inl short)
      obtain ⟨left, rfl⟩ := method
      rw [hcall, List.append_assoc, List.drop_left]
      simpa using goesOn
    | @dollar name method isName seen =>
      have hcall := methodCall_of_stops isName h seen (.inr method)
      obtain ⟨left, rfl⟩ := method
      rw [hcall, List.append_assoc, List.drop_left]
      rfl
  · obtain ⟨name, left, hcall, rfl, hname, hseen, hstop⟩ := exists_shown h harrow
    rw [hcall, List.drop_left]
    intro hleft
    obtain ⟨next, hnext, hpart⟩ := (Option.any_eq_true _ _).1 hleft
    obtain ⟨left, rfl⟩ := List.head?_eq_some_iff.1 hnext
    rcases hstop with hwindow | ⟨ch, hch, hother⟩
    · refine .window ⟨left, ?_⟩ hname hpart hwindow
      rw [List.append_assoc]
      rfl
    · obtain rfl : next = ch := Option.some.inj hch
      -- the one character that goes on a name and is none of a method
      obtain rfl : next = '$' := (isNamePart_iff.1 hpart).resolve_left (by simp [hother])
      refine .dollar ⟨left, ?_⟩ hname hseen
      rw [List.append_assoc]
      rfl

theorem severs_iff_of_not_arrow (h : shown <+: rest) (harrow : ¬ ['-', '>'] <+: shown) :
    Severs rest shown ↔ ['-', '>'] <+: rest := by
  constructor
  · rintro (⟨method, -⟩ | ⟨-, -, -, rfl⟩ | ⟨-, -, seen⟩)
    · exact method
    · exact absurd (List.prefix_append _ _) harrow
    · exact absurd ((List.prefix_append _ _).trans seen) harrow
  · intro method
    refine .arrow method (Nat.lt_of_not_le fun hlong => harrow ?_)
    exact List.prefix_of_prefix_length_le method h hlong

/-- Of the method no more is shown than there is. -/
theorem methodCall_prefix (h : shown <+: rest) :
    methodCall isMethodChar shown <+: methodCall isNamePart rest := by
  by_cases harrow : ['-', '>'] <+: shown
  · obtain ⟨name, left, hcall, rfl, hname, -, -⟩ := exists_shown h harrow
    have hpart : ∀ ch ∈ name, isNamePart ch := fun ch hch => isNamePart_iff.2 (.inl (hname ch hch))
    rw [hcall, methodCall_append hpart]
    exact List.prefix_append _ _
  · rw [methodCall_of_not harrow]
    exact List.nil_prefix

/-- The whole method is shown exactly if it is not severed. -/
theorem methodCall_eq_iff (h : shown <+: rest) :
    methodCall isMethodChar shown = methodCall isNamePart rest ↔ ¬ Severs rest shown := by
  by_cases harrow : ['-', '>'] <+: shown
  · rw [severs_iff_of_arrow h harrow]
    obtain ⟨name, left, hcall, rfl, hname, -, -⟩ := exists_shown h harrow
    have hpart : ∀ ch ∈ name, isNamePart ch := fun ch hch => isNamePart_iff.2 (.inl (hname ch hch))
    rw [hcall, methodCall_append hpart, List.drop_left, Bool.not_eq_true, ← takeWhile_eq_nil_iff,
      eq_comm, List.append_right_eq_self]
  · rw [severs_iff_of_not_arrow h harrow, methodCall_of_not harrow, methodCall]
    by_cases hrest : ['-', '>'] <+: rest
    · simp [hrest]
    · simp [hrest]

/-! ## Boundaries that are moved -/

/-- `taken` is moved from the front of a text of which a window is seen, and `kept` stays. What is
moved is `inner`, the rest of a selector, its two braces, and what is shown of the method. -/
structure TakesCompound (window : Nat) (content taken kept inner rest shown : List Char) :
    Prop where
  text : content = inner ++ ['}', '}'] ++ rest
  selector : ∀ ch ∈ inner, isSelectorChar ch
  seen : takeBytes window content = inner ++ ['}', '}'] ++ shown
  moved : taken = inner ++ ['}', '}'] ++ methodCall isMethodChar shown
  left : kept = rest.drop (methodCall isMethodChar shown).length
  /-- Of the method no more is moved than there is. -/
  within : methodCall isMethodChar shown <+: methodCall isNamePart rest
  /-- All of it is moved exactly if it is not severed. -/
  whole : taken = inner ++ ['}', '}'] ++ methodCall isNamePart rest ↔ ¬ Severs rest shown
  /-- The two characters of the arrow stay together. -/
  arrow : ∀ more, rest = '-' :: '>' :: more → kept ≠ '>' :: more
  /-- What is severed is a part of the name, or the whole method. -/
  behind : if ['-', '>'] <+: shown then Severs rest shown ↔ kept.head?.any isNamePart
    else Severs rest shown ↔ ['-', '>'] <+: kept

namespace Fragment

variable {f g : Fragment} {window : Nat} {moved : List Char}

/-- What a text gives up to a selector, in terms of what a window shows. -/
theorem eq_of_closedSelector {head : List Char} (h : closedSelector head = some moved) :
    ∃ inner shown, (∀ ch ∈ inner, isSelectorChar ch) ∧ head = inner ++ ['}', '}'] ++ shown ∧
      moved = inner ++ ['}', '}'] ++ methodCall isMethodChar shown := by
  have hcloses := closes_closedSelector head
  rw [h] at hcloses
  have hhead := List.prefix_iff_eq_append.1 (List.takeWhile_prefix isSelectorChar (l := head))
  have hinner : ∀ ch ∈ head.takeWhile isSelectorChar, isSelectorChar ch := fun ch hch =>
    List.all_eq_true.1 List.all_takeWhile ch hch
  generalize head.takeWhile isSelectorChar = inner at hcloses hhead hinner
  generalize head.drop inner.length = closing at hcloses hhead
  cases hcloses with
  | @arrow text ahead =>
    refine ⟨inner, '-' :: '>' :: text, hinner, by rw [← hhead, ahead]; simp, ?_⟩
    rw [methodCall_arrow]
    simp
  | @plain text ahead noArrow =>
    refine ⟨inner, text, hinner, by rw [← hhead, ahead]; simp, ?_⟩
    rw [methodCall, noArrow]
    simp

/-- Of a text that begins with the rest of a selector, what a window shows is moved. -/
theorem takesCompound_of_seen {content inner shown more : List Char}
    (selector : ∀ ch ∈ inner, isSelectorChar ch)
    (text : content = inner ++ ['}', '}'] ++ (shown ++ more))
    (seen : takeBytes window content = inner ++ ['}', '}'] ++ shown)
    (hmoved : moved = inner ++ ['}', '}'] ++ methodCall isMethodChar shown) :
    TakesCompound window content moved (content.drop moved.length) inner (shown ++ more) shown := by
  have hshown : shown <+: shown ++ more := List.prefix_append _ _
  have hleft : content.drop moved.length =
      (shown ++ more).drop (methodCall isMethodChar shown).length := by
    rw [hmoved, text, List.length_append, ← List.drop_drop, List.drop_left]
  refine ⟨text, selector, seen, hmoved, hleft, methodCall_prefix hshown, ?_, ?_, ?_⟩
  · rw [hmoved, List.append_cancel_left_eq, methodCall_eq_iff hshown]
  · rw [hleft]
    intro behind hrest hkept
    have hlength := congrArg List.length hkept
    rw [hrest, List.length_drop, List.length_cons, List.length_cons] at hlength
    exact length_methodCall_ne_one isMethodChar shown (by omega)
  · rw [hleft]
    split
    · next harrow => exact severs_iff_of_arrow hshown harrow
    · next harrow =>
      rw [methodCall_of_not harrow]
      exact severs_iff_of_not_arrow hshown harrow

/-- A selector that is open at the end of what a window shows is open at the end of the text. -/
theorem opened_of_lastBytes {content opened : List Char}
    (h : afterLastOpening none (lastBytes window content) = some opened) :
    ['{', '{'] ++ opened <:+ content := by
  obtain ⟨before, htail, -⟩ := lastIndexFrom_of_some h none (i := 0)
  have hsuffix := lastBytes_suffix window content
  rw [htail] at hsuffix
  exact (List.suffix_append before _).trans hsuffix

/-- A boundary is moved only where the first text ends inside a selector and the second one
closes it. The rest of the selector is moved always, and the method behind it exactly if it is
not severed. -/
theorem takesCompound_of_shift (h : Boundary.between window f g = .shift moved) :
    (∃ opened, ['{', '{'] ++ opened <:+ f.content ∧ ∀ ch ∈ opened, isSelectorChar ch) ∧
    ∃ inner rest shown,
      TakesCompound window g.content moved (f.shift g moved).2.content inner rest shown := by
  have hdivided := dividedSelector_of_shift h
  rw [dividedSelector_eq] at hdivided
  split at hdivided
  · next hopen =>
    obtain ⟨opened, hopened, hall⟩ := (Option.any_eq_true _ _).1 hopen
    obtain ⟨inner, shown, hinner, hseen, hmoved⟩ := eq_of_closedSelector hdivided
    obtain ⟨more, hmore⟩ := takeBytes_prefix window g.content
    have htext : g.content = inner ++ ['}', '}'] ++ (shown ++ more) := by
      rw [← hmore, hseen, List.append_assoc]
    exact ⟨⟨opened, opened_of_lastBytes hopened, List.all_eq_true.1 hall⟩,
      inner, shown ++ more, shown, takesCompound_of_seen hinner htext hseen hmoved⟩
  · cases hdivided

/-- A method whose name begins with a dollar sign. -/
theorem takesCompound_of_shift_dollar :
    let frame : Frame := ⟨.scriptLocal, 1, [.global], 1⟩
    let p : Position := ⟨4, 1, 5⟩
    let f := frame.fragment false 0 "\x7b\x7bbo".toList .start p
    let g := frame.fragment false 1 "x\x7d\x7d->$show();".toList p ⟨19, 1, 20⟩
    let moved := "x\x7d\x7d->".toList
    Boundary.between 64 f g = .shift moved ∧ (f.shift g moved).2.content = "$show();".toList ∧
    (∃ opened, ['{', '{'] ++ opened <:+ f.content ∧ ∀ ch ∈ opened, isSelectorChar ch) ∧
    ∃ inner rest shown,
      TakesCompound 64 g.content moved (f.shift g moved).2.content inner rest shown := by
  intro frame p f g moved
  have hshift : Boundary.between 64 f g = .shift moved := by decide +kernel
  exact ⟨hshift, by decide +kernel, takesCompound_of_shift hshift⟩

end Fragment

end Polyglot
