-- SUMMARY: Only a selector or a word can end where a string or a comment goes on.
import Polyglot.Proofs.Atom
import Polyglot.Proofs.Property

/-!
# Severed strings and comments

A unit begins where a token does, and all tokens but two kinds end where the walk over
strings and comments comes by: a selector ends at the first two closing braces, in a string
or not, and a word takes the hyphens along that begin a comment. So no unit begins within a
string or a comment exactly if none does behind a selector or such a word
(`Fragment.unsevered_iff`). The text of a style sheet is never severed.
-/

namespace Polyglot

namespace Cursor

variable {set : GuardSet} {c d a b e x : Cursor} {code : List Char}

/-! ## Places within regions -/

/-- The offset lies within a string or a comment of the walk from `c`, behind its first byte. -/
def Inside (set : GuardSet) (c : Cursor) (i : Nat) : Prop :=
  ∃ a b, c.Guards set a b ∧ a.offset < i ∧ i < b.offset

/-- The walk comes by outside of all regions. -/
theorem Passes.not_inside (h : c.Passes set code d) : ¬ c.Inside set d.offset := by
  rintro ⟨a, b, hguards, hstart, hstop⟩
  have hbegins := kindAt_of_guards hguards
  obtain ⟨⟨_, hpass⟩, guard, hguard, hskip⟩ := hguards
  rcases h.linear hpass with ⟨_, -, hda⟩ | ⟨_, -, had⟩
  · have := hda.reaches.offset_le
    omega
  · cases had with
    | refl => exact Nat.lt_irrefl _ hstart
    | region ahead more =>
      simp only [skipGuarded, ahead, Prod.mk.injEq] at hskip
      have := more.reaches.offset_le
      rw [hskip.2] at this
      omega
    | code ahead more =>
      rw [kindAt_of_front_code ahead] at hbegins
      cases hbegins

theorem Reaches.eq_of_offset (h : c.Reaches d) (k : c.Reaches e) (heq : d.offset = e.offset) :
    d = e := by
  rcases h.total k with hde | hed
  · rcases hde.eq_or_strictly with rfl | hlt
    · rfl
    · exact absurd hlt.offset_lt (heq ▸ Nat.lt_irrefl _)
  · exact absurd hed.offset_lt (heq ▸ Nat.lt_irrefl _)

/-- And it comes by every place outside of them. -/
theorem passes_of_not_inside (h : c.Reaches d) (hd : d.rest ≠ [])
    (hout : ¬ c.Inside set d.offset) : ∃ code, c.Passes set code d := by
  rcases unguarded_or_guards h hd with ⟨hpass, -⟩ | ⟨a, b, hguards, hle, hlt⟩
  · exact hpass
  · rcases Nat.lt_or_eq_of_le hle with hstart | hstart
    · exact absurd ⟨a, b, hguards, hstart, hlt⟩ hout
    · obtain ⟨⟨code, hpass⟩, -⟩ := hguards
      obtain rfl := hpass.reaches.eq_of_offset h hstart
      exact ⟨code, hpass⟩

/-! ## Tokens of scripts -/

section Token

variable {ch : Char} {l : b.Later}

theorem passes_pastArrow (l : b.Later) :
    ∃ code, l.cursor.Passes .script code (pastArrow l).cursor := by
  cases heat : l.cursor.eat ['-', '>'] with
  | none =>
    rw [pastArrow_of_none heat]
    exact ⟨[], .refl _⟩
  | some e =>
    rw [pastArrow_of_some heat]
    refine ⟨_, (consumes_eat rfl heat).passes_of_plain fun x hx => ?_⟩
    exact GuardSet.plain_of_class (q := fun x => x == '-' || x == '>') (by decide) (by decide)
      (by decide) (by decide) (by simpa using hx)

theorem passes_operatorEnd (l : b.Later) :
    ∃ code, l.cursor.Passes .script code (operatorEnd l).cursor := by
  fun_induction operatorEnd l with
  | case1 l ch after ahead hrun ih =>
    obtain ⟨code, hpass⟩ := ih
    exact ⟨_, .code ahead hpass⟩
  | case2 l | case3 l => exact ⟨[], .refl _⟩

/-- A token of a script that is no selector is read as the walk goes. -/
theorem passes_scriptToken {first : x.Later} (ahead : x.front .script = .code ch first)
    (hselector : x.startsWith ['{', '{'] = false) :
    ∃ code, x.Passes .script code (scriptToken x ch first).cursor := by
  have hfirst : ∀ {d : Cursor}, (∃ code, first.cursor.Passes .script code d) →
      ∃ code, x.Passes .script code d := by
    rintro d ⟨code, hpass⟩
    exact ⟨_, .code ahead hpass⟩
  unfold scriptToken
  rw [if_neg (by simp [hselector])]
  split
  · obtain ⟨name, -, -, hname⟩ := passes_eatWhile_isNamePart first.cursor
    obtain ⟨arrow, harrow⟩ := passes_pastArrow (first.eatWhile isNamePart)
    exact hfirst ⟨_, hname.trans harrow⟩
  split
  · refine hfirst ⟨_, (consumes_eatWhile _ first.cursor).passes_of_plain fun y hy => ?_⟩
    exact GuardSet.plain_of_class (q := fun ch => ch.isAlphanum || ch = '.' || ch = '_')
      (by decide) (by decide) (by decide) (by decide)
      (List.all_eq_true.1 List.all_takeWhile y hy)
  split
  · next harrow =>
    obtain ⟨rest, hrest⟩ : ∃ rest, first.cursor.rest = '>' :: rest := by
      obtain ⟨t, ht⟩ := List.isPrefixOf_iff_prefix.1 harrow
      exact ⟨t, (List.cons.inj (ht.trans (front_code ahead).1)).2.symm⟩
    refine hfirst ⟨_, (consumes_advance hrest).passes_of_plain fun y hy => ?_⟩
    rw [List.mem_singleton.1 hy]
    exact GuardSet.plain_of (by decide) (by decide) (.inl (by decide))
  split
  · exact hfirst (passes_operatorEnd first)
  · exact hfirst ⟨[], .refl _⟩

/-! ## Tokens of style sheets -/

theorem advance_of_code {first : x.Later} (ahead : x.front set = .code ch first) :
    x.advance = first.cursor := by
  obtain ⟨hrest, hposition⟩ := front_code ahead
  simp only [advance, hrest, ← hposition]

theorem passes_ruleEnd {first : x.Later} (ahead : x.front .style = .code '{' first)
    (hopen : (ruleEnd x first).cursor.rest ≠ []) :
    ∃ code, x.Passes .style code (ruleEnd x first).cursor := by
  unfold ruleEnd at hopen ⊢
  cases hclose : x.matchingClose .style with
  | error issue =>
    rw [hclose] at hopen
    exact absurd rfl hopen
  | ok close =>
    obtain ⟨code, hpass, ⟨after, hafter⟩, -⟩ :=
      closeFrom_ok (matchingClose_ok hclose) (Nat.le_refl 1)
    rw [advance_of_code ahead] at hpass
    have hbrace : close.cursor.advance = after.cursor := advance_of_code hafter
    have hlast : close.cursor.Passes .style ['}'] close.cursor.advance := by
      rw [hbrace]
      exact .code hafter (.refl _)
    exact ⟨_, (Passes.code ahead hpass).trans hlast⟩

theorem passes_declarationEnd (l : b.Later) (hopen : (declarationEnd l).cursor.rest ≠ []) :
    ∃ code, l.cursor.Passes .style code (declarationEnd l).cursor := by
  fun_induction declarationEnd l with
  | case1 l ahead => exact ⟨[], .refl _⟩
  | case2 l issue atEnd ahead => exact absurd (atEnd_of_front ahead) hopen
  | case3 l kind after ahead ih =>
    obtain ⟨code, hpass⟩ := ih hopen
    exact ⟨_, .region ahead hpass⟩
  | case4 l after ahead => exact ⟨[], .refl _⟩
  | case5 l after ahead => exact ⟨_, .code ahead (.refl _)⟩
  | case6 l after ahead => exact passes_ruleEnd ahead hopen
  | case7 l ch after ahead hclose hsemi hbrace ih =>
    obtain ⟨code, hpass⟩ := ih hopen
    exact ⟨_, .code ahead hpass⟩

/-- A token of a style sheet is read as the walk goes. -/
theorem passes_styleToken {first : x.Later} (ahead : x.front .style = .code ch first)
    (hopen : (styleToken x ch first).cursor.rest ≠ []) :
    ∃ code, x.Passes .style code (styleToken x ch first).cursor := by
  unfold styleToken at hopen ⊢
  split
  · exact ⟨_, .code ahead (.refl _)⟩
  · next hmark =>
    rw [if_neg hmark] at hopen
    split
    · next hbrace =>
      subst hbrace
      exact passes_ruleEnd ahead hopen
    · next hbrace =>
      rw [if_neg hbrace] at hopen
      obtain ⟨code, hpass⟩ := passes_declarationEnd first hopen
      exact ⟨_, .code ahead hpass⟩

/-! ## Words -/

/-- Of the characters of a word, only two hyphens in front of a blank begin a region. -/
theorem kindAt_word {r : List Char} (hch : isWordPart ch)
    (hhyphens : ∀ t, r = '-' :: t → ch = '-' → t.head?.all isBlank = false) :
    GuardSet.template.kindAt (ch :: r) = none := by
  have hne : ∀ y, isWordPart y = false → ch ≠ y := by
    rintro y hy rfl
    simp [hy] at hch
  cases hkind : GuardSet.template.kindAt (ch :: r) with
  | none => rfl
  | some kind =>
    exfalso
    cases kind with
    | string =>
      have hquote : ch = '"' ∨ ch = '\'' := by
        simpa [GuardSet.template] using GuardSet.kindAt_string_iff.1 hkind
      rcases hquote with rfl | rfl <;> cases hch
    | lineComment => exact hne '/' rfl (GuardSet.kindAt_lineComment_iff.1 hkind).2.2.1
    | blockComment => exact hne '/' rfl (GuardSet.kindAt_blockComment_iff.1 hkind).2.2.1
    | generatorComment =>
      obtain ⟨-, -, rfl, t, rfl, hblank⟩ := GuardSet.kindAt_generatorComment_iff.1 hkind
      rw [hhyphens t rfl rfl] at hblank
      cases hblank

theorem not_isBlank_of_isWordPart (h : isWordPart ch) : isBlank ch = false := by
  cases hblank : isBlank ch with
  | false => rfl
  | true =>
    simp only [isBlank, isHorizontalBlank, Bool.or_eq_true, beq_iff_eq] at hblank
    rcases hblank with ((rfl | rfl) | rfl) | rfl <;> cases h

/-- A word that does not end in two hyphens is code. -/
theorem passes_word {u r : List Char} (hu : ∀ ch ∈ u, isWordPart ch)
    (hr : ∀ ch ∈ r.head?, isWordPart ch = false) (hhyphens : ¬ ['-', '-'] <:+ u) (p : Position) :
    Passes .template ⟨p, u ++ r⟩ u ⟨p.advanceOver u, r⟩ := by
  induction u generalizing p with
  | nil => exact .refl _
  | cons ch u ih =>
    have hkind : GuardSet.template.kindAt (ch :: (u ++ r)) = none := by
      refine kindAt_word (hu ch List.mem_cons_self) fun t ht hch => ?_
      cases u with
      | nil =>
        -- the second hyphen would belong to the word
        have hnext := hr '-' (by rw [List.nil_append] at ht; simp [ht])
        cases hnext
      | cons y u =>
        obtain ⟨rfl, rfl⟩ := List.cons.inj ht
        cases u with
        | nil => exact absurd (hch ▸ List.suffix_rfl) hhyphens
        | cons z u =>
          have hz := not_isBlank_of_isWordPart (hu z (by simp))
          simp [hz]
    obtain ⟨after, hfront, hafter⟩ := front_eq_code hkind p
    refine .code hfront ?_
    rw [hafter]
    exact ih (fun y hy => hu y (List.mem_cons_of_mem ch hy))
      (fun hsuffix => hhyphens (hsuffix.trans (List.suffix_cons ch u))) _

theorem passes_eatWhile_isWordPart (c : Cursor)
    (hhyphens : ¬ ['-', '-'] <:+ c.rest.takeWhile isWordPart) :
    ∃ code, c.Passes .template code (c.eatWhile isWordPart) := by
  have hpasses := passes_word (u := c.rest.takeWhile isWordPart) (r := c.rest.dropWhile isWordPart)
    (fun y hy => List.all_eq_true.1 List.all_takeWhile y hy) ?_ hhyphens c.position
  · rw [List.takeWhile_append_dropWhile, ← eatWhileFrom_eq] at hpasses
    exact ⟨_, hpasses⟩
  · intro y hy
    have hstop := List.head?_dropWhile_not isWordPart c.rest
    rw [hy] at hstop
    simpa using hstop

/-- A token of template text is read as the walk goes, if it is no word with two hyphens at
its end. -/
theorem passes_templateToken {first : x.Later} (ahead : x.front .template = .code ch first)
    (hword : ch.isAlphanum || ch = '_' → ¬ ['-', '-'] <:+ x.rest.takeWhile isWordPart) :
    ∃ code, x.Passes .template code (templateToken ch first).cursor := by
  unfold templateToken
  split
  · next hstart =>
    have hpart : isWordPart ch := by
      simp only [Bool.or_eq_true, decide_eq_true_eq] at hstart
      rcases hstart with h | rfl
      · simp [isWordPart, h]
      · rfl
    obtain ⟨hrest, hposition⟩ := front_code ahead
    have hsame : x.eatWhile isWordPart = first.cursor.eatWhile isWordPart := by
      simp only [eatWhile, hrest, hposition, eatWhileFrom, hpart, if_true]
    obtain ⟨code, hpasses⟩ := passes_eatWhile_isWordPart x (hword hstart)
    rw [hsame] at hpasses
    exact ⟨code, hpasses⟩
  · exact ⟨_, .code ahead (.refl _)⟩

end Token

end Cursor

namespace Target

open Cursor

variable {target : Target} {set : GuardSet} {c c₀ d x z : Cursor} {xs : List Cursor}

/-! ## Tokens that may sever -/

/-- The token ahead is a selector, or a word with two hyphens at its end. -/
def IsLoose (target : Target) (x : Cursor) : Prop :=
  match target with
  | .script | .scriptExtension => x.startsWith ['{', '{']
  | .template => (x.rest.head?.any fun ch => ch.isAlphanum || ch = '_') ∧
      ['-', '-'] <:+ x.rest.takeWhile isWordPart
  | .css | .passthrough => False

instance (target : Target) (x : Cursor) : Decidable (target.IsLoose x) :=
  match target with
  | .script | .scriptExtension => inferInstanceAs (Decidable (x.startsWith ['{', '{'] = true))
  | .template => inferInstanceAs (Decidable
      ((x.rest.head?.any fun ch => ch.isAlphanum || ch = '_') = true ∧
        ['-', '-'] <:+ x.rest.takeWhile isWordPart))
  | .css | .passthrough => inferInstanceAs (Decidable False)

theorem quotes_guardSet (target : Target) : target.guardSet.quotes ⊆ GuardSet.script.quotes := by
  cases target <;> decide

/-- Any other token is read as the walk goes. -/
theorem passes_token {after : x.Later}
    (ahead : target.piece? target.guardSet x = some (.token, after)) (hloose : ¬ target.IsLoose x)
    (hopen : after.cursor.rest ≠ []) : ∃ code, x.Passes target.guardSet code after.cursor := by
  rcases piece?_token ahead with ⟨first, hfront, rfl⟩ | ⟨issue, hfront⟩ |
    ⟨ch, first, -, hfront, rfl⟩
  · cases target with
    | css =>
      obtain ⟨code, hpass⟩ := passes_declarationEnd first hopen
      exact ⟨_, .region hfront hpass⟩
    | _ => exact ⟨_, .region hfront (.refl _)⟩
  · exact absurd (atEnd_of_front hfront) hopen
  · cases target with
    | script | scriptExtension => exact passes_scriptToken hfront (by simpa [IsLoose] using hloose)
    | css => exact passes_styleToken hfront hopen
    | template =>
      refine passes_templateToken hfront fun hstart hsuffix => hloose ⟨?_, hsuffix⟩
      rw [(front_code hfront).1]
      simpa using hstart
    | passthrough => exact absurd rfl hopen

theorem plain_of_isBlank (hset : set.quotes ⊆ GuardSet.script.quotes) {ch : Char}
    (h : isBlank ch) : set.Plain ch := by
  simp only [isBlank, isHorizontalBlank, Bool.or_eq_true, beq_iff_eq] at h
  have hquote : ch ∉ set.quotes := by
    intro hmem
    have hscript := hset hmem
    rcases h with ((rfl | rfl) | rfl) | rfl <;> revert hscript <;> decide
  rcases h with ((rfl | rfl) | rfl) | rfl <;>
    exact GuardSet.plain_of hquote (by decide) (.inl (by decide))

/-- White space and comments are read as the walk goes. -/
theorem Skips.passes (hset : set.quotes ⊆ GuardSet.script.quotes) (h : target.Skips set c d)
    (hopen : d.rest ≠ []) : ∃ code, c.Passes set code d := by
  induction h with
  | refl c => exact ⟨[], .refl c⟩
  | @trivia c d after ahead more ih =>
    obtain ⟨code, hpass⟩ := ih hopen
    rcases piece?_trivia ahead with ⟨kind, -, hfront⟩ | ⟨issue, -, hfront⟩ |
      ⟨ch, first, -, hfront, rfl⟩
    · exact ⟨_, .region hfront hpass⟩
    · exact absurd (atEnd_of_front hfront) (more.reaches.rest_ne_nil hopen)
    · have hblanks := (consumes_eatWhile isBlank first.cursor).passes_of_plain fun y hy =>
        plain_of_isBlank hset (List.all_eq_true.1 List.all_takeWhile y hy)
      exact ⟨_, .code hfront (hblanks.trans hpass)⟩

/-! ## Tokens in order -/

theorem rest_ne_nil_of_token {after : x.Later}
    (ahead : target.piece? set x = some (.token, after)) : x.rest ≠ [] := by
  intro hnil
  rw [piece?_atEnd hnil] at ahead
  cases ahead

/-- Tokens begin one behind the other, each in front of some text. -/
theorem Tokens.strictly (h : target.Tokens set c xs) :
    xs.Pairwise StrictlyReaches ∧ ∀ x ∈ xs, c.Reaches x ∧ x.rest ≠ [] := by
  induction h with
  | done => exact ⟨.nil, fun x hx => by cases hx⟩
  | @token c x after xs before ahead more ih =>
    obtain ⟨horder, hbehind⟩ := ih
    refine ⟨List.pairwise_cons.2 ⟨fun y hy => ?_, horder⟩, fun y hy => ?_⟩
    · exact after.strictlyReaches.trans_reaches (hbehind y hy).1
    · rcases List.mem_cons.1 hy with rfl | hy
      · exact ⟨before.reaches, rest_ne_nil_of_token ahead⟩
      · exact ⟨before.reaches.trans (after.reaches.trans (hbehind y hy).1), (hbehind y hy).2⟩

theorem Tokens.head_not_inside (h : target.Tokens target.guardSet c xs) :
    ∀ x ∈ xs.head?, ¬ c.Inside target.guardSet x.offset := by
  intro x hx
  cases h with
  | done => cases hx
  | @token _ y after ys before ahead more =>
    obtain rfl : y = x := Option.some.inj hx
    obtain ⟨_, hpass⟩ := before.passes (quotes_guardSet target) (rest_ne_nil_of_token ahead)
    exact hpass.not_inside

/-- If the first token begins outside of all regions, and so does each behind a selector or a
word, then all tokens do. -/
theorem Tokens.not_inside (h : target.Tokens target.guardSet c xs) (hc : c₀.Reaches c)
    (hfirst : ∀ x ∈ xs.head?, ¬ c₀.Inside target.guardSet x.offset)
    (hnext : ∀ x z, [x, z] <:+: xs → target.IsLoose x → ¬ c₀.Inside target.guardSet x.offset →
      ¬ c₀.Inside target.guardSet z.offset) :
    ∀ x ∈ xs, ¬ c₀.Inside target.guardSet x.offset := by
  induction h with
  | done => exact fun x hx => by cases hx
  | @token c x after xs before ahead more ih =>
    have hx := hfirst x rfl
    have hreach : c₀.Reaches x := hc.trans before.reaches
    refine List.forall_mem_cons.2 ⟨hx, ih (hreach.trans after.reaches) ?_ fun y z hyz => ?_⟩
    · intro z hz
      cases more with
      | done => cases hz
      | @token _ y after' ys between ahead' more' =>
        obtain rfl : y = z := Option.some.inj hz
        by_cases hloose : target.IsLoose x
        · exact hnext x y ⟨[], ys, rfl⟩ hloose hx
        · have hy := rest_ne_nil_of_token ahead'
          obtain ⟨_, hto⟩ := passes_of_not_inside hreach (rest_ne_nil_of_token ahead) hx
          obtain ⟨_, hover⟩ := passes_token ahead hloose (between.reaches.rest_ne_nil hy)
          obtain ⟨_, hon⟩ := between.passes (quotes_guardSet target) hy
          exact (hto.trans (hover.trans hon)).not_inside
    · exact hnext y z (hyz.trans (List.suffix_cons x xs).isInfix)

end Target

namespace Fragment

open Cursor

variable {f : Fragment}

/-! ## Where units begin -/

/-- The cursors at which the tokens of a fragment begin, in order. -/
def tokens (f : Fragment) : List Cursor :=
  (f.target.tokensFrom f.context.guardSet [] f.cursor).reverse

theorem tokens_spec (f : Fragment) : f.target.Tokens f.target.guardSet f.cursor f.tokens := by
  obtain ⟨xs, hresult, htokens⟩ :=
    Target.exists_tokens f.target f.context.guardSet [] f.cursor
  rw [tokens, hresult, List.append_nil, List.reverse_reverse, guardSet_target]
  exact htokens

theorem strictlyReaches_stretches {c : Cursor} {cuts : List Cursor}
    (horder : (c :: cuts).Pairwise StrictlyReaches) (hopen : ∀ x ∈ c :: cuts, x.rest ≠ []) :
    ∀ ab ∈ c.stretches cuts, ab.1.StrictlyReaches ab.2 := by
  induction cuts generalizing c with
  | nil =>
    intro ab hab
    rw [List.mem_singleton.1 hab]
    obtain ⟨ch, rest, hrest⟩ := List.exists_cons_of_ne_nil (hopen c List.mem_cons_self)
    exact ⟨ch, rest, by simp [hrest, toEnd], by simp [toEnd, hrest]⟩
  | cons d cuts ih =>
    obtain ⟨hc, horder⟩ := List.pairwise_cons.1 horder
    have hd := hc d List.mem_cons_self
    rw [stretches_cons hd.reaches]
    exact List.forall_mem_cons.2 ⟨hd, ih horder fun x hx => hopen x (List.mem_cons_of_mem c hx)⟩

/-- No part between two cursors is empty if they are apart. -/
theorem filter_map_part {pieces : List (Cursor × Cursor)}
    (h : ∀ ab ∈ pieces, ab.1.StrictlyReaches ab.2) (cut : Cursor × Cursor → Fragment)
    (hcut : ∀ ab, cut ab = f.part ab.1 ab.2) :
    (pieces.map cut).filter (!·.content.isEmpty) = pieces.map cut := by
  rw [List.filter_eq_self]
  intro u hu
  obtain ⟨ab, hab, rfl⟩ := List.mem_map.1 hu
  obtain ⟨ch, text, hread⟩ := h ab hab
  simp [hcut, part, hread.textTo_eq]

/-- Units keep their places when they are numbered. -/
theorem map_start_zipIdx {issued : Nat} {units : List Fragment}
    (number : Fragment × Nat → Fragment) (hnumber : ∀ u, (number u).start = u.1.start) :
    ((units.zipIdx issued).map number).map start = units.map start := by
  have hstart : start ∘ number = start ∘ Prod.fst := funext hnumber
  rw [List.map_map, hstart, ← List.map_map, List.zipIdx_map_fst]

/-- The first unit begins with the fragment, and the others begin with the tokens. -/
theorem map_start_minimalUnits (htokens : f.tokens ≠ []) (issued : Nat) :
    (f.minimalUnits issued).map start = f.start :: (f.tokens.drop 1).map Cursor.position := by
  obtain ⟨horder, hbehind⟩ := f.tokens_spec.strictly
  have hstrict : ∀ ab ∈ f.cursor.stretches (f.tokens.drop 1), ab.1.StrictlyReaches ab.2 := by
    obtain ⟨x, xs, hxs⟩ := List.exists_cons_of_ne_nil htokens
    rw [hxs] at horder hbehind ⊢
    obtain ⟨hx, horder⟩ := List.pairwise_cons.1 horder
    obtain ⟨hreach, hopen⟩ := hbehind x List.mem_cons_self
    refine strictlyReaches_stretches (List.pairwise_cons.2 ⟨fun y hy => ?_, horder⟩) fun y hy => ?_
    · exact hreach.trans_strictly (hx y hy)
    · rcases List.mem_cons.1 hy with rfl | hy
      · exact hreach.rest_ne_nil hopen
      · exact (hbehind y (List.mem_cons_of_mem x hy)).2
  have hstarts : (f.cursor.stretches (f.tokens.drop 1)).map Prod.fst =
      f.cursor :: f.tokens.drop 1 := List.map_fst_zip (by simp)
  have hcuts : f.target.unitCuts f.context.guardSet f.cursor = f.tokens.drop 1 := rfl
  unfold minimalUnits
  simp only [hcuts]
  rw [filter_map_part hstrict _ fun _ => rfl, map_start_zipIdx]
  swap
  · exact fun _ => rfl
  have hfirsts := congrArg (List.map Cursor.position) hstarts
  rw [List.map_map] at hfirsts ⊢
  exact hfirsts

/-- All units but the first begin where the tokens do. -/
theorem map_start_tail_minimalUnits (f : Fragment) (issued : Nat) :
    (f.minimalUnits issued).tail.map start = (f.tokens.drop 1).map Cursor.position := by
  by_cases htokens : f.tokens = []
  · have hcuts : f.target.unitCuts f.context.guardSet f.cursor = [] :=
      congrArg (List.drop 1) htokens
    rw [htokens]
    unfold minimalUnits
    simp only [hcuts, stretches, List.nil_append, List.zipWith_cons_cons, List.zipWith_nil_left,
      List.map_cons, List.map_nil, List.filter_cons]
    split <;> rfl
  · rw [List.map_tail, map_start_minimalUnits htokens, List.tail_cons]

/-! ## Severed regions -/

/-- No unit but the first begins within a string or a comment, exactly if none begins there
behind a selector or a word that itself begins outside. So the text of a style sheet is never
severed. -/
theorem unsevered_iff (f : Fragment) (issued : Nat) :
    ((∀ u ∈ (f.minimalUnits issued).tail,
        ¬ f.cursor.Inside f.context.guardSet u.start.offset) ↔
      ∀ x z, [x, z] <:+: f.tokens → f.target.IsLoose x →
        ¬ f.cursor.Inside f.context.guardSet x.offset →
        ¬ f.cursor.Inside f.context.guardSet z.offset) ∧
    (f.target = .css → ∀ u ∈ (f.minimalUnits issued).tail,
      ¬ f.cursor.Inside f.context.guardSet u.start.offset) := by
  have hunits : (∀ u ∈ (f.minimalUnits issued).tail,
      ¬ f.cursor.Inside f.context.guardSet u.start.offset) ↔
        ∀ z ∈ f.tokens.drop 1, ¬ f.cursor.Inside f.context.guardSet z.offset := by
    have hstarts := map_start_tail_minimalUnits f issued
    constructor
    · intro h z hz
      obtain ⟨u, hu, hposition⟩ := List.mem_map.1 (hstarts ▸ List.mem_map_of_mem hz)
      rw [offset, ← hposition]
      exact h u hu
    · intro h u hu
      obtain ⟨z, hz, hposition⟩ := List.mem_map.1 (hstarts ▸ List.mem_map_of_mem hu)
      rw [← hposition]
      exact h z hz
  have htokens := f.tokens_spec
  have hiff : (∀ z ∈ f.tokens.drop 1, ¬ f.cursor.Inside f.context.guardSet z.offset) ↔
      ∀ x z, [x, z] <:+: f.tokens → f.target.IsLoose x →
        ¬ f.cursor.Inside f.context.guardSet x.offset →
        ¬ f.cursor.Inside f.context.guardSet z.offset := by
    rw [← guardSet_target]
    constructor
    · rintro h x z ⟨us, vs, hsplit⟩ - -
      refine h z ?_
      rw [← hsplit]
      cases us <;> simp
    · intro h z hz
      exact htokens.not_inside (.refl _) htokens.head_not_inside h z (List.mem_of_mem_drop hz)
  refine ⟨hunits.trans hiff, fun hstyle => (hunits.trans hiff).2 fun x z _ hloose => ?_⟩
  rw [hstyle] at hloose
  exact hloose.elim

/-- A selector that holds a string with two closing braces ends within it, and a unit begins
at the quote that closes the string. -/
theorem unsevered_iff_selector : ∃ f : Fragment, f.context = .scriptLocal ∧
    (f.minimalUnits 0).map content =
      ["\x7b\x7bbox['\x7d\x7d".toList, "']\x7d\x7d->show();".toList] ∧
    ¬ ∀ u ∈ (f.minimalUnits 0).tail, ¬ f.cursor.Inside f.context.guardSet u.start.offset := by
  let f : Fragment :=
    { Stack.empty.frame with
      context := .scriptLocal, id := 0, start := .start, stop := ⟨22, 1, 23⟩, features := .none,
      content := "\x7b\x7bbox['\x7d\x7d']\x7d\x7d->show();".toList
      literals := [], degraded := false }
  let z : Cursor := ⟨⟨9, 1, 10⟩, "']\x7d\x7d->show();".toList⟩
  let quote : Cursor := ⟨⟨6, 1, 7⟩, "'\x7d\x7d']\x7d\x7d->show();".toList⟩
  let behind : Cursor := ⟨⟨10, 1, 11⟩, "]\x7d\x7d->show();".toList⟩
  have hunits : (f.minimalUnits 0).map content =
      ["\x7b\x7bbox['\x7d\x7d".toList, "']\x7d\x7d->show();".toList] := by decide +kernel
  have htokens : f.tokens = [f.cursor, z] := by decide +kernel
  have hplain : ∀ ch ∈ "\x7b\x7bbox[".toList,
      (!GuardSet.script.quotes.contains ch && ch != '/') = true := List.all_eq_true.1 (by decide)
  have hread : f.cursor.Passes .script "\x7b\x7bbox[".toList quote := by
    refine Consumes.passes_of_plain ⟨by decide, by decide⟩ fun ch hch => ?_
    obtain ⟨hquote, hslash⟩ := Bool.and_eq_true_iff.1 (hplain ch hch)
    exact GuardSet.plain_of (by simpa using hquote) (by simpa using hslash) (.inr rfl)
  have hstring : f.cursor.Guards .script quote behind :=
    ⟨⟨_, hread⟩, .skipped .string, by decide, by decide +kernel⟩
  refine ⟨f, rfl, hunits, fun hnone => ?_⟩
  refine (unsevered_iff f 0).1.1 hnone f.cursor z (htokens ▸ List.infix_rfl) (by decide +kernel)
    (Passes.refl f.cursor).not_inside ?_
  exact ⟨quote, behind, hstring, by decide, by decide⟩

end Fragment

end Polyglot
