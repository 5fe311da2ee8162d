-- SUMMARY: A minimal unit, divided again, is one unit.
import Polyglot.Proofs.Portion
import Polyglot.Proofs.Unit

/-!
# Units are atoms

A unit is one token with the white space and the comments behind it, and at the start of a
fragment also those in front of it (`Target.IsUnit`). A token is read in the same way when
nothing is left of the text but its own unit (`Cursor.UpTo.token`): what ended it in the
whole text ends it there too, or the text ends. So the text of a unit holds one token, and
to divide a unit changes nothing (`Fragment.atomic_minimalUnits`).
-/

namespace Polyglot

namespace Target

/-- The strings and comments in text of a target. -/
def guardSet : Target → GuardSet
  | .template => .template
  | .css => .style
  | .script | .scriptExtension => .script
  | .passthrough => .raw

/-- From one cursor to another there are only white space and comments. -/
inductive Skips (target : Target) (set : GuardSet) : Cursor → Cursor → Prop
  | refl (c : Cursor) : Skips target set c c
  | trivia {c d : Cursor} {after : c.Later} (ahead : target.piece? set c = some (.trivia, after))
      (more : Skips target set after.cursor d) : Skips target set c d

/-- From one cursor to another there is at most one token. -/
inductive IsUnit (target : Target) (set : GuardSet) (c d : Cursor) : Prop
  | trivia (skips : target.Skips set c d)
  | token {x : Cursor} {after : x.Later} (before : target.Skips set c x)
      (ahead : target.piece? set x = some (.token, after))
      (behind : target.Skips set after.cursor d)

variable {target : Target} {set : GuardSet} {c d x part : Cursor} {ch : Char}

theorem Skips.reaches (h : target.Skips set c d) : c.Reaches d := by
  induction h with
  | refl c => exact .refl c
  | @trivia _ _ after ahead _ ih => exact after.reaches.trans ih

theorem IsUnit.reaches (h : target.IsUnit set c d) : c.Reaches d := by
  cases h with
  | trivia skips => exact skips.reaches
  | @token x after before ahead behind =>
    exact before.reaches.trans (after.reaches.trans behind.reaches)

/-! ## Pieces -/

/-- Trivia is a comment, complete or not, or a run of blanks. -/
theorem piece?_trivia {after : c.Later} (h : target.piece? set c = some (.trivia, after)) :
    (∃ kind, kind ≠ .string ∧ c.front set = .region kind after) ∨
    (∃ issue, issue.region = .blockComment ∧ c.front set = .openRegion issue after) ∨
    ∃ ch first, isBlank ch ∧ c.front set = .code ch first ∧ after = first.eatWhile isBlank := by
  unfold piece? at h
  split at h
  · cases h
  · cases h
  · next kind first hstring ahead =>
    cases h
    exact .inl ⟨kind, hstring, ahead⟩
  · next issue atEnd ahead =>
    split at h
    · next hblock =>
      cases h
      exact .inr (.inl ⟨issue, hblock, ahead⟩)
    · cases h
  · next ch first ahead =>
    split at h
    · next hblank =>
      cases h
      exact .inr (.inr ⟨ch, first, hblank, ahead, rfl⟩)
    · cases h

/-- A token begins with a string, complete or not, or with a character of code. -/
theorem piece?_token {after : c.Later} (h : target.piece? set c = some (.token, after)) :
    (∃ first, c.front set = .region .string first ∧ after = target.tokenEndAfterString first) ∨
    (∃ issue, c.front set = .openRegion issue after) ∨
    ∃ ch first, isBlank ch = false ∧ c.front set = .code ch first ∧
      after = target.tokenEnd c ch first := by
  unfold piece? at h
  split at h
  · cases h
  · next first ahead =>
    cases h
    exact .inl ⟨first, ahead, rfl⟩
  · cases h
  · next issue atEnd ahead =>
    split at h
    · cases h
    · cases h
      exact .inr (.inl ⟨issue, ahead⟩)
  · next ch first ahead =>
    split at h
    · cases h
    · next hblank =>
      cases h
      exact .inr (.inr ⟨ch, first, by simpa using hblank, ahead, rfl⟩)

theorem piece?_comment {kind : GuardKind} {after : c.Later} (comment : kind ≠ .string)
    (ahead : c.front set = .region kind after) :
    target.piece? set c = some (.trivia, after) := by
  rw [piece?, ahead]
  cases kind with
  | string => exact absurd rfl comment
  | _ => rfl

theorem piece?_blank {first : c.Later} (blank : isBlank ch) (ahead : c.front set = .code ch first) :
    target.piece? set c = some (.trivia, first.eatWhile isBlank) := by
  rw [piece?, ahead]
  simp only [blank, if_true]

theorem piece?_string {first : c.Later} (ahead : c.front set = .region .string first) :
    target.piece? set c = some (.token, target.tokenEndAfterString first) := by
  rw [piece?, ahead]

theorem piece?_code {first : c.Later} (solid : isBlank ch = false)
    (ahead : c.front set = .code ch first) :
    target.piece? set c = some (.token, target.tokenEnd c ch first) := by
  rw [piece?, ahead]
  simp [solid]

theorem piece?_atEnd (h : c.rest = []) : target.piece? set c = none := by
  rw [piece?, Cursor.front_eq_finish_iff.2 h]

end Target

namespace Cursor

variable {target : Target} {set : GuardSet} {c d e part : Cursor} {ch : Char}

/-- Whatever is read from a cursor takes in the character ahead. -/
theorem Later.reaches_of_code {first : c.Later} (ahead : c.front set = .code ch first)
    (l : c.Later) : first.cursor.Reaches l.cursor := by
  have hread : c.Consumes [ch] first.cursor := front_code ahead
  obtain ⟨x, text, hl⟩ := l.reached
  obtain ⟨rfl, hrest⟩ : x = ch ∧ text ++ l.cursor.rest = first.cursor.rest := by
    have happend := hl.1.symm.trans hread.1
    simpa using happend
  exact ⟨text, hrest.symm, by rw [hl.2, hread.2, Position.advanceOver_cons]; rfl⟩

/-! ## Trivia of a portion -/

theorem UpTo.trivia {after : c.Later} (h : UpTo d c part)
    (ahead : target.piece? set c = some (.trivia, after)) (hd : after.cursor.Reaches d) :
    ∃ after', target.piece? set part = some (.trivia, after') ∧
      UpTo d after.cursor after'.cursor := by
  rcases Target.piece?_trivia ahead with ⟨kind, comment, hfront⟩ | ⟨issue, -, hfront⟩ |
    ⟨ch, first, blank, hfront, rfl⟩
  · obtain ⟨after', hfront', hup⟩ := h.region hfront hd
    exact ⟨after', Target.piece?_comment comment hfront', hup⟩
  · -- an open comment takes in the rest of the text, so nothing was cut off
    have hnil : d.rest = [] := by
      obtain ⟨text, htext⟩ := hd
      have hrest := htext.1
      rw [atEnd_of_front hfront] at hrest
      exact (List.append_eq_nil_iff.1 hrest.symm).2
    obtain rfl := h.eq_of_atEnd hnil
    exact ⟨after, ahead, upTo_self hd hnil⟩
  · have hyphens : set.generatorComments = true → part.rest ≠ ['-', '-'] := by
      rintro - hrest
      obtain ⟨more, hmore⟩ := h.prefix_rest
      rw [hrest, (front_code hfront).1] at hmore
      obtain rfl : '-' = ch := (List.cons.inj hmore).1
      cases blank
    obtain ⟨first', hfront', hup⟩ := h.code hfront
      ((first.cursor.reaches_eatWhile isBlank).trans hd) hyphens
    exact ⟨first'.eatWhile isBlank, Target.piece?_blank blank hfront', hup.eatWhile hd⟩

theorem UpTo.skips (h : UpTo d c part) (hskips : target.Skips set c e) (hd : e.Reaches d) :
    ∃ e', target.Skips set part e' ∧ UpTo d e e' := by
  induction hskips generalizing part with
  | refl c => exact ⟨part, .refl part, h⟩
  | @trivia c e after ahead more ih =>
    obtain ⟨after', ahead', hup⟩ := h.trivia ahead (more.reaches.trans hd)
    obtain ⟨e', hmore, hend⟩ := ih hup hd
    exact ⟨e', .trivia ahead' hmore, hend⟩

/-- No token lies ahead where only white space and comments are left. -/
theorem UpTo.ne_token (h : UpTo d c part) (hskips : target.Skips set c d) (after : part.Later) :
    target.piece? set part ≠ some (.token, after) := by
  cases hskips with
  | refl =>
    rw [Target.piece?_atEnd h.eq_nil]
    exact fun hpiece => by cases hpiece
  | trivia ahead more =>
    obtain ⟨after', ahead', -⟩ := h.trivia ahead more.reaches
    rw [ahead']
    exact fun hpiece => by cases hpiece

/-! ## Tokens of a portion -/

section Token

variable {b b' : Cursor} {l : b.Later} {l' : b'.Later}

theorem pastArrow_of_some (h : l.cursor.eat ['-', '>'] = some e) : (pastArrow l).cursor = e := by
  unfold pastArrow
  split
  · next x hx => exact Option.some.inj (hx.symm.trans h)
  · next hx => cases hx.symm.trans h

theorem pastArrow_of_none (h : l.cursor.eat ['-', '>'] = none) : pastArrow l = l := by
  unfold pastArrow
  split
  · next x hx => cases hx.symm.trans h
  · rfl

theorem reaches_pastArrow (l : b.Later) : l.cursor.Reaches (pastArrow l).cursor := by
  cases heat : l.cursor.eat ['-', '>'] with
  | some e =>
    rw [pastArrow_of_some heat]
    exact ⟨_, consumes_eat rfl heat⟩
  | none =>
    rw [pastArrow_of_none heat]
    exact .refl l.cursor

theorem UpTo.pastArrow (h : UpTo d l.cursor l'.cursor)
    (hd : (pastArrow l).cursor.Reaches d) :
    UpTo d (pastArrow l).cursor (Cursor.pastArrow l').cursor := by
  cases heat : l.cursor.eat ['-', '>'] with
  | some e =>
    rw [pastArrow_of_some heat] at hd ⊢
    obtain ⟨e', heat', hup⟩ := h.eat rfl heat hd
    rwa [pastArrow_of_some heat']
  | none =>
    have heat' := eat_eq_none_iff.2 (h.startsWith (eat_eq_none_iff.1 heat))
    rwa [pastArrow_of_none heat, pastArrow_of_none heat']

theorem pastSelector_of_some (h : l.cursor.find ['}', '}'] = some e) :
    (pastSelector l).cursor = e.advance.advance := by
  unfold pastSelector
  split
  · next x hx =>
    obtain rfl := Option.some.inj (hx.symm.trans h)
    rfl
  · next hx => cases hx.symm.trans h

theorem pastSelector_of_none (h : l.cursor.find ['}', '}'] = none) : pastSelector l = l.toEnd := by
  unfold pastSelector
  split
  · next x hx => cases hx.symm.trans h
  · rfl

theorem UpTo.pastSelector (hopen : d.rest ≠ []) (h : UpTo d l.cursor l'.cursor)
    (hd : (pastSelector l).cursor.Reaches d) :
    UpTo d (pastSelector l).cursor (Cursor.pastSelector l').cursor := by
  cases hfind : l.cursor.find ['}', '}'] with
  | none =>
    rw [pastSelector_of_none hfind] at hd
    exact absurd rfl (hd.rest_ne_nil hopen)
  | some e =>
    obtain ⟨text, hrest⟩ := rest_find hfind
    rw [pastSelector_of_some hfind] at hd ⊢
    obtain ⟨e', hfind', hup⟩ := h.find hfind (consumes_advance_advance hrest) hd
    rw [pastSelector_of_some hfind']
    have hnext := hup.advance (by simp [hrest]) (e.advance.reaches_advance.trans hd)
    exact hnext.advance (by simp [Cursor.advance, hrest]) hd

/-- A selector is longer than its first two braces. -/
theorem length_pastSelector (h : (Cursor.pastSelector l).cursor.rest ≠ []) :
    (Cursor.pastSelector l).cursor.rest.length + 2 ≤ l.cursor.rest.length := by
  cases hfind : l.cursor.find ['}', '}'] with
  | none =>
    rw [pastSelector_of_none hfind] at h
    exact absurd rfl h
  | some e =>
    obtain ⟨text, hrest⟩ := rest_find hfind
    have hread := consumes_advance_advance hrest
    have hlength := congrArg List.length hread.1
    obtain ⟨before, hbefore⟩ := reaches_find hfind
    have hreach := hbefore.length_le
    rw [pastSelector_of_some hfind]
    simp only [List.length_append, List.length_cons, List.length_nil] at hlength
    omega

theorem reaches_operatorEnd (l : b.Later) : l.cursor.Reaches (operatorEnd l).cursor := by
  fun_induction Cursor.operatorEnd l with
  | case1 l ch after ahead hrun ih => exact after.reaches.trans ih
  | case2 l | case3 l => exact .refl l.cursor

theorem not_isOperator_of_isBlank (h : isBlank ch) : isOperator ch = false := by
  simp only [isBlank, isHorizontalBlank, Bool.or_eq_true, beq_iff_eq] at h
  rcases h with ((rfl | rfl) | rfl) | rfl <;> rfl

/-- A run of operator characters ends where no token is ahead. -/
theorem operatorEnd_eq_self (h : ∀ after, target.piece? .script l.cursor ≠ some (.token, after)) :
    operatorEnd l = l := by
  rw [operatorEnd.eq_def]
  split
  · next ch after ahead =>
    have hrun : isOperator ch = false := by
      cases hblank : isBlank ch with
      | false => exact absurd (Target.piece?_code hblank ahead) (h _)
      | true => exact not_isOperator_of_isBlank hblank
    simp [hrun]
  · rfl

theorem UpTo.operatorEnd (h : UpTo d l.cursor l'.cursor)
    (behind : target.Skips .script (operatorEnd l).cursor d) :
    UpTo d (operatorEnd l).cursor (Cursor.operatorEnd l').cursor := by
  fun_induction Cursor.operatorEnd l generalizing b' l' with
  | case1 l ch after ahead hrun ih =>
    have hd := (reaches_operatorEnd (after.since l.reaches)).trans behind.reaches
    obtain ⟨after', ahead', hup⟩ := h.code ahead hd (fun hon => by cases hon)
    have hrun' : isOperator ch && !l'.cursor.startsWith ['-', '>'] := by
      simp only [Bool.and_eq_true, Bool.not_eq_true'] at hrun ⊢
      exact ⟨hrun.1, h.startsWith hrun.2⟩
    rw [Cursor.operatorEnd.eq_def l', ahead']
    simp only [hrun', if_true]
    exact ih hup behind
  | case2 l ch after ahead hstop =>
    rwa [operatorEnd_eq_self (h.ne_token behind)]
  | case3 l hother =>
    rwa [operatorEnd_eq_self (h.ne_token behind)]

/-! ### Style sheets -/

theorem UpTo.ruleEnd {first : c.Later} {first' : part.Later} (hopen : d.rest ≠ [])
    (h : UpTo d c part) (hd : (ruleEnd c first).cursor.Reaches d) :
    UpTo d (ruleEnd c first).cursor (Cursor.ruleEnd part first').cursor := by
  unfold Cursor.ruleEnd at hd ⊢
  cases hclose : c.matchingClose .style with
  | error issue =>
    rw [hclose] at hd
    exact absurd rfl (hd.rest_ne_nil hopen)
  | ok close =>
    rw [hclose] at hd
    have hend : close.cursor.Reaches d := close.cursor.reaches_advance.trans hd
    have hinside := matchingClose_ok hclose
    have hadvance := h.advance ((close.reaches.trans hend).rest_ne_nil hopen)
      ((closeFrom_reaches hinside).trans hend)
    obtain ⟨e, hinside', hup⟩ := hadvance.closeFrom rfl hinside hd
    obtain ⟨p, text⟩ := part
    cases text with
    | nil =>
      -- the brace that closes the rule stands between the two cursors
      obtain ⟨w, hw⟩ := hend
      have hlength : c.rest.length = d.rest.length := congrArg List.length h.read.1
      exact absurd close.length_lt (Nat.not_lt.2 (hlength ▸ hw.length_le))
    | cons ch text =>
      obtain ⟨close', hclose', rfl⟩ := exists_matchingClose hinside'
      rw [hclose']
      exact hup.advance (hend.rest_ne_nil hopen) hd

theorem reaches_declarationEnd (l : b.Later) : l.cursor.Reaches (declarationEnd l).cursor := by
  fun_induction Cursor.declarationEnd l with
  | case1 l ahead => exact .refl l.cursor
  | case2 l issue atEnd ahead => exact atEnd.reaches
  | case3 l kind after ahead ih => exact after.reaches.trans ih
  | case4 l after ahead => exact .refl l.cursor
  | case5 l after ahead => exact after.reaches
  | case6 l after ahead => exact (Cursor.ruleEnd l.cursor after).reaches
  | case7 l ch after ahead hclose hsemi hopen ih => exact after.reaches.trans ih

/-- A declaration ends where the text does. -/
theorem declarationEnd_atEnd (h : l.cursor.rest = []) : declarationEnd l = l := by
  rw [declarationEnd.eq_def, front_eq_finish_iff.2 h]

theorem UpTo.declarationEnd (hopen : d.rest ≠ []) (h : UpTo d l.cursor l'.cursor)
    (behind : target.Skips .style (declarationEnd l).cursor d) :
    UpTo d (declarationEnd l).cursor (Cursor.declarationEnd l').cursor := by
  have hyphens : ∀ part : Cursor, GuardSet.style.generatorComments = true →
      part.rest ≠ ['-', '-'] := fun _ hon => by cases hon
  fun_induction Cursor.declarationEnd l generalizing b' l' with
  | case1 l ahead =>
    exact absurd (front_eq_finish_iff.1 ahead) (behind.reaches.rest_ne_nil hopen)
  | case2 l issue atEnd ahead =>
    exact absurd (atEnd_of_front ahead) (behind.reaches.rest_ne_nil hopen)
  | case3 l kind after ahead ih =>
    have hd := (reaches_declarationEnd (after.since l.reaches)).trans behind.reaches
    obtain ⟨after', ahead', hup⟩ := h.region ahead hd
    rw [Cursor.declarationEnd.eq_def l', ahead']
    exact ih hup behind
  | case4 l after ahead =>
    -- the brace that stays ahead is a token, so the text has to end in front of it
    cases behind with
    | refl => rwa [declarationEnd_atEnd h.eq_nil]
    | trivia hpiece more =>
      rw [Target.piece?_code rfl ahead] at hpiece
      cases hpiece
  | case5 l after ahead =>
    obtain ⟨after', ahead', hup⟩ := h.code ahead behind.reaches (hyphens _)
    rw [Cursor.declarationEnd.eq_def l', ahead']
    exact hup
  | case6 l after ahead =>
    have hd := (Later.reaches_of_code ahead (Cursor.ruleEnd l.cursor after)).trans behind.reaches
    obtain ⟨after', ahead', -⟩ := h.code ahead hd (hyphens _)
    rw [Cursor.declarationEnd.eq_def l', ahead']
    exact h.ruleEnd hopen behind.reaches
  | case7 l ch after ahead hclose hsemi hbrace ih =>
    have hd := (reaches_declarationEnd (after.since l.reaches)).trans behind.reaches
    obtain ⟨after', ahead', hup⟩ := h.code ahead hd (hyphens _)
    rw [Cursor.declarationEnd.eq_def l', ahead']
    simp only [if_neg hclose, if_neg hsemi, if_neg hbrace]
    exact ih hup behind

/-! ### Any token -/

/-- The stop is behind the second character of a token that has more than one. -/
theorem UpTo.startsWith_pair {m : Cursor} {x y : Char} (h : UpTo d c part) (first : c.Later)
    (hm : m.rest.length < first.cursor.rest.length) (hd : m.Reaches d) :
    part.startsWith [x, y] = c.startsWith [x, y] := by
  obtain ⟨w, hw⟩ := hd
  have hfirst := first.length_lt
  have hshort := hw.length_le
  exact h.startsWith_iff (show 2 + d.rest.length ≤ c.rest.length by omega)

theorem UpTo.scriptToken {first : c.Later} {first' : part.Later} (hopen : d.rest ≠ [])
    (h : UpTo d c part) (hfirst : UpTo d first.cursor first'.cursor)
    (behind : target.Skips .script (scriptToken c ch first).cursor d) :
    UpTo d (scriptToken c ch first).cursor (Cursor.scriptToken part ch first').cursor := by
  unfold Cursor.scriptToken at behind ⊢
  by_cases hselector : c.startsWith ['{', '{']
  · rw [if_pos hselector] at behind
    have hd := (reaches_pastArrow (Cursor.pastSelector first)).trans behind.reaches
    have hshort := length_pastSelector (hd.rest_ne_nil hopen)
    have hselector' := h.startsWith_pair (x := '{') (y := '{') first (by omega) hd
    rw [if_pos hselector, if_pos (hselector'.trans hselector)]
    exact (hfirst.pastSelector hopen hd).pastArrow behind.reaches
  have hselector' : part.startsWith ['{', '{'] = false :=
    h.startsWith (Bool.eq_false_iff.2 hselector)
  rw [if_neg hselector] at behind
  rw [if_neg hselector, if_neg (Bool.eq_false_iff.1 hselector')]
  split
  · next hname =>
    rw [if_pos hname] at behind
    have hd := (reaches_pastArrow (first.eatWhile isNamePart)).trans behind.reaches
    exact UpTo.pastArrow (hfirst.eatWhile hd) behind.reaches
  · next hname =>
    rw [if_neg hname] at behind
    split
    · next hdigit =>
      rw [if_pos hdigit] at behind
      exact hfirst.eatWhile behind.reaches
    · next hdigit =>
      rw [if_neg hdigit] at behind
      by_cases harrow : c.startsWith ['-', '>']
      · rw [if_pos harrow] at behind
        have hd : first.cursor.advance.Reaches d := behind.reaches
        have hnonempty := (first.cursor.reaches_advance.trans hd).rest_ne_nil hopen
        have harrow' := h.startsWith_pair (x := '-') (y := '>') first (length_advance hnonempty) hd
        rw [if_pos harrow, if_pos (harrow'.trans harrow)]
        exact hfirst.advance hnonempty hd
      · have harrow' : part.startsWith ['-', '>'] = false :=
          h.startsWith (Bool.eq_false_iff.2 harrow)
        rw [if_neg harrow] at behind
        rw [if_neg harrow, if_neg (Bool.eq_false_iff.1 harrow')]
        split
        · next hoperator =>
          rw [if_pos hoperator] at behind
          exact hfirst.operatorEnd behind
        · exact hfirst

theorem UpTo.styleToken {first : c.Later} {first' : part.Later} (hopen : d.rest ≠ [])
    (h : UpTo d c part) (hfirst : UpTo d first.cursor first'.cursor)
    (behind : target.Skips .style (styleToken c ch first).cursor d) :
    UpTo d (styleToken c ch first).cursor (Cursor.styleToken part ch first').cursor := by
  unfold Cursor.styleToken at behind ⊢
  split
  · exact hfirst
  · next hmark =>
    rw [if_neg hmark] at behind
    split
    · next hbrace =>
      rw [if_pos hbrace] at behind
      exact h.ruleEnd hopen behind.reaches
    · next hbrace =>
      rw [if_neg hbrace] at behind
      exact hfirst.declarationEnd hopen behind

theorem UpTo.templateToken {first : c.Later} {first' : part.Later}
    (hfirst : UpTo d first.cursor first'.cursor)
    (hd : (templateToken ch first).cursor.Reaches d) :
    UpTo d (templateToken ch first).cursor (Cursor.templateToken ch first').cursor := by
  unfold Cursor.templateToken at hd ⊢
  split
  · next hword =>
    rw [if_pos hword] at hd
    exact hfirst.eatWhile hd
  · exact hfirst

/-- One hyphen is no comment. -/
theorem not_skips_hyphen (p : Position) (hd : d.rest = []) :
    ¬ Target.Skips .template .template ⟨p, ['-']⟩ d := by
  intro hskips
  cases hskips with
  | refl => cases hd
  | trivia ahead => cases ahead

/-- Two hyphens in front of a stop are a comment or a token each, so no token is the first
of the last two. -/
theorem UpTo.ne_hyphens {first : c.Later} (h : UpTo d c part)
    (ahead : c.front target.guardSet = .code ch first)
    (behind : target.Skips target.guardSet (target.tokenEnd c ch first).cursor d) :
    target.guardSet.generatorComments = true → part.rest ≠ ['-', '-'] := by
  intro hon hrest
  cases target with
  | template =>
    have hd := (Later.reaches_of_code ahead (Target.tokenEnd .template c ch first)).trans
      behind.reaches
    have hread : c.Consumes [ch] first.cursor := front_code ahead
    obtain ⟨v, rfl, hup⟩ := h.exists_append hread hd
    obtain ⟨rfl, rfl⟩ : ch = '-' ∧ v = ['-'] := by simpa using hrest
    obtain ⟨e, hskips, hend⟩ := UpTo.skips hup behind (.refl d)
    exact not_skips_hyphen first.cursor.position hend.eq_nil hskips
  | _ => cases hon

theorem UpTo.tokenEnd {first : c.Later} {first' : part.Later} (hopen : d.rest ≠ [])
    (h : UpTo d c part) (hfirst : UpTo d first.cursor first'.cursor)
    (behind : target.Skips target.guardSet (target.tokenEnd c ch first).cursor d) :
    UpTo d (target.tokenEnd c ch first).cursor (target.tokenEnd part ch first').cursor := by
  cases target with
  | template => exact hfirst.templateToken behind.reaches
  | css => exact h.styleToken hopen hfirst behind
  | script | scriptExtension => exact h.scriptToken hopen hfirst behind
  | passthrough => exact absurd rfl (behind.reaches.rest_ne_nil hopen)

theorem UpTo.tokenEndAfterString {first : c.Later} {first' : part.Later} (hopen : d.rest ≠ [])
    (hfirst : UpTo d first.cursor first'.cursor)
    (behind : target.Skips target.guardSet (target.tokenEndAfterString first).cursor d) :
    UpTo d (target.tokenEndAfterString first).cursor
      (target.tokenEndAfterString first').cursor := by
  cases target with
  | css => exact hfirst.declarationEnd hopen behind
  | _ => exact hfirst

theorem reaches_tokenEndAfterString (target : Target) (l : b.Later) :
    l.cursor.Reaches (target.tokenEndAfterString l).cursor := by
  cases target with
  | css => exact reaches_declarationEnd l
  | _ => exact .refl l.cursor

/-- A token is read in the same way where the text ends with its unit. -/
theorem UpTo.token {after : c.Later} (h : UpTo d c part)
    (ahead : target.piece? target.guardSet c = some (.token, after))
    (behind : target.Skips target.guardSet after.cursor d) :
    ∃ after', target.piece? target.guardSet part = some (.token, after') ∧
      UpTo d after.cursor after'.cursor := by
  by_cases hopen : d.rest = []
  · obtain rfl := h.eq_of_atEnd hopen
    exact ⟨after, ahead, upTo_self behind.reaches hopen⟩
  rcases Target.piece?_token ahead with ⟨first, hfront, rfl⟩ | ⟨issue, hfront⟩ |
    ⟨ch, first, hblank, hfront, rfl⟩
  · have hd := (reaches_tokenEndAfterString target first).trans behind.reaches
    obtain ⟨first', hfront', hup⟩ := h.region hfront hd
    exact ⟨_, Target.piece?_string hfront', hup.tokenEndAfterString hopen behind⟩
  · exact absurd (atEnd_of_front hfront) (behind.reaches.rest_ne_nil hopen)
  · have hd := (Later.reaches_of_code hfront (target.tokenEnd c ch first)).trans behind.reaches
    obtain ⟨first', hfront', hup⟩ := h.code hfront hd (h.ne_hyphens hfront behind)
    exact ⟨_, Target.piece?_code hblank hfront', h.tokenEnd hopen hup behind⟩

end Token

end Cursor

/-! ## Units -/

namespace Target

variable {target : Target} {set : GuardSet} {c d x part : Cursor} {xs found : List Cursor}

/-- The tokens of the text that is left from a cursor on begin at some cursors. -/
inductive Tokens (target : Target) (set : GuardSet) : Cursor → List Cursor → Prop
  | done {c : Cursor} (skips : target.Skips set c c.toEnd) : Tokens target set c []
  | token {c x : Cursor} {after : x.Later} {xs : List Cursor} (before : target.Skips set c x)
      (ahead : target.piece? set x = some (.token, after))
      (more : Tokens target set after.cursor xs) : Tokens target set c (x :: xs)

theorem tokens_atEnd (h : c.rest = []) : target.Tokens set c [] := by
  have hend : c.toEnd = c := by
    obtain ⟨p, text⟩ := c
    subst h
    rfl
  exact .done (hend.symm ▸ .refl c)

theorem Tokens.trivia {after : c.Later} (ahead : target.piece? set c = some (.trivia, after))
    (h : target.Tokens set after.cursor xs) : target.Tokens set c xs := by
  cases h with
  | done skips => exact .done (.trivia ahead (after.reaches.toEnd_eq ▸ skips))
  | token before hpiece more => exact .token (.trivia ahead before) hpiece more

theorem piece?_eq_none (h : target.piece? set c = none) : c.rest = [] := by
  unfold piece? at h
  split at h
  · next ahead => exact Cursor.front_eq_finish_iff.1 ahead
  · cases h
  · cases h
  · cases h
  · split at h <;> cases h

/-- The tokens that are found from a cursor on are those of the text ahead. -/
theorem exists_tokens (target : Target) (set : GuardSet) (found : List Cursor) (c : Cursor) :
    ∃ xs, tokensFrom target set found c = xs.reverse ++ found ∧ target.Tokens set c xs := by
  fun_induction tokensFrom target set found c with
  | case1 found c hpiece => exact ⟨[], rfl, tokens_atEnd (piece?_eq_none hpiece)⟩
  | case2 found c after hpiece ih =>
    obtain ⟨xs, hresult, htokens⟩ := ih
    exact ⟨xs, hresult, htokens.trivia hpiece⟩
  | case3 found c after hpiece ih =>
    obtain ⟨xs, hresult, htokens⟩ := ih
    exact ⟨c :: xs, by simp [hresult], .token (.refl c) hpiece htokens⟩

/-- Between the tokens of a text are units, and in front of the first one nothing but white
space and comments. -/
theorem Tokens.stretches_eq (h : target.Tokens set c xs) :
    ∃ d rest, c.stretches xs = (c, d) :: rest ∧ target.Skips set c d ∧
      ∀ ab ∈ rest, target.IsUnit set ab.1 ab.2 := by
  induction h with
  | @done c skips => exact ⟨c.toEnd, [], rfl, skips, fun ab hab => by cases hab⟩
  | @token c x after xs before ahead more ih =>
    obtain ⟨d, rest, hstretches, hskips, hrest⟩ := ih
    refine ⟨x, (x, d) :: rest, ?_, before, ?_⟩
    · rw [Cursor.stretches_cons before.reaches, Cursor.stretches_since after.reaches hstretches]
    · intro ab hab
      rcases List.mem_cons.1 hab with rfl | hab
      · exact .token (.refl x) ahead hskips
      · exact hrest ab hab

/-- The stretches between the cuts of a text are units. -/
theorem isUnit_of_mem_stretches (h : (d, x) ∈ c.stretches (target.unitCuts set c)) :
    target.IsUnit set d x := by
  obtain ⟨xs, hresult, htokens⟩ := exists_tokens target set [] c
  have hcuts : target.unitCuts set c = xs.drop 1 := by
    rw [unitCuts, hresult, List.append_nil, List.reverse_reverse]
  rw [hcuts] at h
  cases htokens with
  | done skips =>
    obtain ⟨rfl, rfl⟩ : d = c ∧ x = c.toEnd := by simpa [Cursor.stretches] using h
    exact .trivia skips
  | @token _ y after xs before ahead more =>
    obtain ⟨e, rest, hstretches, hskips, hrest⟩ := more.stretches_eq
    rw [List.drop_one, List.tail_cons,
      Cursor.stretches_since (before.reaches.trans after.reaches) hstretches] at h
    rcases List.mem_cons.1 h with h | h
    · cases h
      exact .token before ahead hskips
    · exact hrest _ h

theorem tokensFrom_skips (h : target.Skips set c d) (found : List Cursor) :
    tokensFrom target set found c = tokensFrom target set found d := by
  induction h with
  | refl c => rfl
  | @trivia c d after ahead more ih =>
    rw [tokensFrom, ahead]
    exact ih

theorem tokensFrom_atEnd (h : c.rest = []) (found : List Cursor) :
    tokensFrom target set found c = found := by
  rw [tokensFrom, piece?_atEnd h]

/-- The text of a unit holds at most one token. -/
theorem IsUnit.unitCuts_eq (h : target.IsUnit target.guardSet c d) (hpart : Cursor.UpTo d c part) :
    target.unitCuts target.guardSet part = [] := by
  unfold unitCuts
  cases h with
  | trivia skips =>
    obtain ⟨e, hskips, hend⟩ := hpart.skips skips (.refl d)
    rw [tokensFrom_skips hskips, tokensFrom_atEnd hend.eq_nil]
    rfl
  | @token x after before ahead behind =>
    obtain ⟨x', hbefore, hx⟩ := hpart.skips before (after.reaches.trans behind.reaches)
    obtain ⟨after', ahead', hafter⟩ := hx.token ahead behind
    obtain ⟨e, hbehind, hend⟩ := hafter.skips behind (.refl d)
    rw [tokensFrom_skips hbefore, tokensFrom, ahead']
    simp only [tokensFrom_skips hbehind, tokensFrom_atEnd hend.eq_nil]
    rfl

end Target

namespace Fragment

variable {f u : Fragment} {issued : Nat}

theorem guardSet_target (f : Fragment) : f.target.guardSet = f.context.guardSet := by
  unfold target
  cases f.context with
  | scriptLocal => cases f.features.isExtension <;> rfl
  | _ => rfl

/-- A unit is a unit of text between two cursors of its fragment. -/
theorem exists_isUnit (hu : u ∈ f.minimalUnits issued) :
    ∃ c d id, f.target.IsUnit f.target.guardSet c d ∧ u = { f.part c d with id := id } ∧
      u.content ≠ [] := by
  unfold minimalUnits at hu
  obtain ⟨⟨v, id⟩, hv, rfl⟩ := List.mem_map.1 hu
  obtain ⟨hpart, htext⟩ := List.mem_filter.1 (List.fst_mem_of_mem_zipIdx hv)
  obtain ⟨⟨c, d⟩, hcd, rfl⟩ := List.mem_map.1 hpart
  rw [← f.guardSet_target] at hcd
  exact ⟨c, d, id, Target.isUnit_of_mem_stretches hcd, rfl, by simpa using htext⟩

/-- From its start to its end, a fragment is its own part. -/
theorem part_self (hstop : f.cursor.toEnd.position = f.stop)
    (hliterals : ∀ l ∈ f.literals, f.start.offset ≤ l.offset ∧ l.offset < f.stop.offset) :
    f.part f.cursor f.cursor.toEnd = f := by
  have hcontent : f.cursor.textTo f.cursor.toEnd = f.content := by
    obtain ⟨text, htext⟩ := f.cursor.reaches_toEnd
    rw [htext.textTo_eq, ← List.append_nil text]
    exact htext.1.symm
  have hfilter : (f.literals.filter fun l => f.cursor.offset ≤ l.offset &&
      l.offset < f.cursor.toEnd.offset) = f.literals := by
    rw [List.filter_eq_self, show f.cursor.toEnd.offset = f.stop.offset from
      congrArg Position.offset hstop]
    intro l hl
    rw [Bool.and_eq_true, decide_eq_true_eq, decide_eq_true_eq]
    exact hliterals l hl
  rw [part, hcontent, hstop, hfilter]
  rfl

theorem minimalUnits_of_uncut (hcuts : f.target.unitCuts f.context.guardSet f.cursor = [])
    (htext : f.content ≠ []) (hstop : f.cursor.toEnd.position = f.stop)
    (hliterals : ∀ l ∈ f.literals, f.start.offset ≤ l.offset ∧ l.offset < f.stop.offset)
    (next : Nat) : f.minimalUnits next = [{ f with id := next }] := by
  have hstretches : f.cursor.stretches [] = [(f.cursor, f.cursor.toEnd)] := rfl
  have hkept : [f].filter (!·.content.isEmpty) = [f] := by simpa using htext
  rw [minimalUnits, hcuts, hstretches]
  simp only [List.map_cons, List.map_nil, part_self hstop hliterals, hkept]
  rfl

/-- Units are atoms: a unit, divided again, is one unit, itself under a new number. So to
divide the units of a fragment gives the same units. -/
theorem atomic_minimalUnits (f : Fragment) (issued : Nat) :
    (∀ u ∈ f.minimalUnits issued, ∀ next, u.minimalUnits next = [{ u with id := next }]) ∧
    ((f.minimalUnits issued).flatMap fun u => u.minimalUnits u.id) = f.minimalUnits issued := by
  have hatoms : ∀ u ∈ f.minimalUnits issued, ∀ next,
      u.minimalUnits next = [{ u with id := next }] := by
    intro u hu next
    have hliterals : ∀ l ∈ u.literals, u.start.offset ≤ l.offset ∧ l.offset < u.stop.offset := by
      intro l hl
      rw [(isPart_minimalUnits hu).literals] at hl
      simpa using (List.mem_filter.1 hl).2
    obtain ⟨c, d, id, hunit, rfl, htext⟩ := exists_isUnit hu
    have hportion : Cursor.UpTo d c ⟨c.position, c.textTo d⟩ := Cursor.upTo_textTo hunit.reaches
    refine minimalUnits_of_uncut ?_ htext hportion.read.2.symm hliterals next
    rw [← guardSet_target]
    exact hunit.unitCuts_eq hportion
  refine ⟨hatoms, ?_⟩
  rw [List.flatMap_congr fun u hu => hatoms u hu u.id]
  exact List.flatMap_singleton' _

/-- A local script with a selector and its arrow, a run of operators and open comments. -/
theorem atomic_minimalUnits_script : ∃ f : Fragment,
    f.content = "\x7b\x7bbox\x7d\x7d->show(); // a\n x --> y /* b".toList ∧
    (f.minimalUnits 0).map Fragment.content = ["\x7b\x7bbox\x7d\x7d->".toList, "show".toList,
      "(".toList, ")".toList, "; // a\n ".toList, "x ".toList, "-".toList, "-> ".toList,
      "y /* b".toList] ∧
    (∀ u ∈ f.minimalUnits 0, ∀ next, u.minimalUnits next = [{ u with id := next }]) ∧
    ((f.minimalUnits 0).flatMap fun u => u.minimalUnits u.id) = f.minimalUnits 0 := by
  let f : Fragment :=
    { Stack.empty.frame with
      context := .scriptLocal, id := 0, start := .start, stop := .start, features := .none,
      content := "\x7b\x7bbox\x7d\x7d->show(); // a\n x --> y /* b".toList
      literals := [], degraded := false }
  have hunits : (f.minimalUnits 0).map Fragment.content = ["\x7b\x7bbox\x7d\x7d->".toList,
      "show".toList, "(".toList, ")".toList, "; // a\n ".toList, "x ".toList, "-".toList,
      "-> ".toList, "y /* b".toList] := by decide +kernel
  exact ⟨f, rfl, hunits, atomic_minimalUnits f 0⟩

end Fragment

end Polyglot
