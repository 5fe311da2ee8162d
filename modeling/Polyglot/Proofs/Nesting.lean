-- SUMMARY: A cut between statements goes through no more pairs of brackets than stray brackets stand before it.
import Polyglot.Proofs.Body

/-!
# Nesting

The search for the cuts of a script does not match brackets, it counts them: a closing
parenthesis that nothing opened makes up for one that is opened later. So a cut can lie
between a bracket and the one that closes it, but no cut goes through more pairs than stray
brackets stand before it (`Cursor.statementCuts_counted`). A semicolon of the script cuts
exactly where no more groups are open than were closed too often.
-/

namespace Polyglot

/-! ## Brackets -/

inductive BracketKind where
  | round
  | square
  | curly
  deriving DecidableEq

/-- A bracket of a text, and where it stands. -/
structure Bracket where
  kind : BracketKind
  opens : Bool
  offset : Nat
  deriving DecidableEq

namespace Bracket

/-- The bracket that a character is. -/
def at? (offset : Nat) : Char → Option Bracket
  | '(' => some ⟨.round, true, offset⟩
  | ')' => some ⟨.round, false, offset⟩
  | '[' => some ⟨.square, true, offset⟩
  | ']' => some ⟨.square, false, offset⟩
  | '{' => some ⟨.curly, true, offset⟩
  | '}' => some ⟨.curly, false, offset⟩
  | _ => none

def isCurly (b : Bracket) : Bool := b.kind = .curly

/-- A parenthesis or a square bracket. -/
def isGroup (b : Bracket) : Bool := !b.isCurly

theorem offset_of_at? {offset : Nat} {ch : Char} {b : Bracket} (h : at? offset ch = some b) :
    b.offset = offset := by
  unfold at? at h
  split at h <;> cases h <;> rfl

/-- A character that is no bracket is flat. -/
theorem isFlat_of_at?_eq_none {offset : Nat} {ch : Char} (h : at? offset ch = none) :
    StatementState.IsFlat ch := by
  intro hch
  simp only [List.mem_cons, List.not_mem_nil, or_false] at hch
  rcases hch with rfl | rfl | rfl | rfl | rfl | rfl <;> cases h

/-- How a bracket is counted. -/
theorem count_of_at? {offset : Nat} {ch : Char} {b : Bracket} (h : at? offset ch = some b)
    (s : StatementState) :
    (s.count ch).groups =
        s.groups + (if b.isGroup then if b.opens then 1 else -1 else 0) ∧
      (s.count ch).braces =
        if b.isGroup then s.braces else if b.opens then s.braces + 1 else s.braces - 1 := by
  unfold at? at h
  split at h <;> cases h <;>
    simp [StatementState.count, isGroup, isCurly, Int.sub_eq_add_neg]

end Bracket

/-! ## Matching -/

/-- Brackets matched in the order of a text. -/
structure Nesting where
  /-- The open brackets, innermost one first. -/
  opened : List Bracket
  /-- Each bracket that was closed, with the one that closed it. -/
  pairs : List (Bracket × Bracket)
  /-- The closing brackets that did not close the innermost open one. -/
  stray : List Bracket

namespace Nesting

def empty : Nesting := ⟨[], [], []⟩

/-- The next bracket is met. -/
def meet (n : Nesting) (b : Bracket) : Nesting :=
  if b.opens then { n with opened := b :: n.opened }
  else
    match n.opened with
    | [] => { n with stray := b :: n.stray }
    | o :: rest =>
      if o.kind = b.kind then { n with opened := rest, pairs := (o, b) :: n.pairs }
      else { n with stray := b :: n.stray }

/-- The brackets of a text are matched. -/
def of (bs : List Bracket) : Nesting := bs.foldl meet empty

/-- A bracket is met in one of three ways. -/
inductive Meets (n : Nesting) (b : Bracket) : Nesting → Prop where
  | opens (opens : b.opens = true) : Meets n b { n with opened := b :: n.opened }
  | closes {o : Bracket} {rest : List Bracket} (closes : b.opens = false)
      (opened : n.opened = o :: rest) (same : o.kind = b.kind) :
      Meets n b { n with opened := rest, pairs := (o, b) :: n.pairs }
  | stray (closes : b.opens = false) (other : ∀ o ∈ n.opened.head?, o.kind ≠ b.kind) :
      Meets n b { n with stray := b :: n.stray }

theorem meets {n n' : Nesting} {b : Bracket} (h : n.meet b = n') : n.Meets b n' := by
  subst h
  unfold meet
  split
  · next hopens => exact .opens hopens
  · next hopens =>
    have hcloses : b.opens = false := by simpa using hopens
    split
    · next hopened => exact .stray hcloses (by simp [hopened])
    · next o rest hopened =>
      split
      · next hsame => exact .closes hcloses hopened hsame
      · next hother => exact .stray hcloses (by simpa [hopened] using hother)

theorem of_append_singleton (bs : List Bracket) (b : Bracket) :
    of (bs ++ [b]) = (of bs).meet b := by
  simp [of]

/-! ## Counting -/

/-- How many more brackets of a sort are open than were closed too often. -/
def excess (n : Nesting) (p : Bracket → Bool) : Int := n.opened.countP p - n.stray.countP p

/-- The excess counts brackets as the search does, whichever way they are met. -/
theorem excess_meet {p : Bracket → Bool} (n : Nesting) {b : Bracket}
    (hp : ∀ o : Bracket, o.kind = b.kind → p o = p b) :
    (n.meet b).excess p = n.excess p + if p b then if b.opens then 1 else -1 else 0 := by
  generalize hmeet : n.meet b = n'
  cases meets hmeet with
  | opens opens =>
    simp only [excess, List.countP_cons, opens, if_true]
    split <;> omega
  | closes closes opened same =>
    simp only [excess, opened, List.countP_cons, hp _ same, closes]
    split
    · simp
      omega
    · simp
  | stray closes =>
    simp only [excess, List.countP_cons, closes]
    split
    · simp
      omega
    · simp

/-- The counters of the search tell what is open and what was closed too often. -/
structure Counted (bs : List Bracket) (s : StatementState) : Prop where
  groups : s.groups = (of bs).excess Bracket.isGroup
  /-- Braces are matched on their own. -/
  braces : s.braces = (of (bs.filter Bracket.isCurly)).opened.length
  curly : (of bs).excess Bracket.isCurly ≤ s.braces

/-- Braces alone are closed as long as one is open. -/
theorem length_opened_meet {n : Nesting} (hopened : ∀ o ∈ n.opened, o.isCurly) {b : Bracket}
    (hb : b.isCurly) : (n.meet b).opened.length =
      if b.opens then n.opened.length + 1 else n.opened.length - 1 := by
  have hkind : ∀ {o : Bracket}, o.isCurly → o.kind = b.kind := fun {o} ho => by
    simp only [Bracket.isCurly, decide_eq_true_eq] at ho hb
    rw [ho, hb]
  generalize hmeet : n.meet b = n'
  cases meets hmeet with
  | opens opens => simp [opens]
  | closes closes opened => simp [closes, opened]
  | stray closes other =>
    cases hn : n.opened with
    | nil => simp [closes]
    | cons o rest =>
      exact absurd (hkind (hopened o (by simp [hn]))) (other o (by simp [hn]))

theorem mem_opened_of {bs : List Bracket} {o : Bracket} (h : o ∈ (of bs).opened) : o ∈ bs := by
  induction bs using List.reverseRecOn with
  | nil => cases h
  | append_singleton bs b ih =>
    rw [of_append_singleton] at h
    generalize hmeet : (of bs).meet b = n at h
    rw [List.mem_append, List.mem_singleton]
    cases meets hmeet with
    | opens => exact (List.mem_cons.1 h).symm.imp_left ih
    | closes _ opened => exact .inl (ih (opened ▸ List.mem_cons_of_mem _ h))
    | stray => exact .inl (ih h)

theorem mem_pairs_of {bs : List Bracket} {o c : Bracket} (h : (o, c) ∈ (of bs).pairs) : c ∈ bs := by
  induction bs using List.reverseRecOn with
  | nil => cases h
  | append_singleton bs b ih =>
    rw [of_append_singleton] at h
    generalize hmeet : (of bs).meet b = n at h
    rw [List.mem_append, List.mem_singleton]
    cases meets hmeet with
    | opens => exact .inl (ih h)
    | closes => exact (List.mem_cons.1 h).symm.imp ih fun heq => (Prod.mk.inj heq).2
    | stray => exact .inl (ih h)

theorem counted_initial : Counted [] .initial := ⟨rfl, rfl, Int.le_refl 0⟩

/-- Counting a bracket keeps the counters right. -/
theorem Counted.bracket {bs : List Bracket} {s : StatementState} (h : Counted bs s)
    {ch : Char} {offset : Nat} {b : Bracket} (hb : Bracket.at? offset ch = some b) :
    Counted (bs ++ [b]) (s.count ch) := by
  obtain ⟨hgroups, hbraces⟩ := Bracket.count_of_at? hb s
  obtain ⟨hg, hown, hc⟩ := h
  have howned : (of ((bs ++ [b]).filter Bracket.isCurly)).opened.length =
      if b.isGroup then s.braces else if b.opens then s.braces + 1 else s.braces - 1 := by
    cases hcurly : b.isCurly with
    | false => simp [Bracket.isGroup, hcurly, hown]
    | true =>
      have hall : ∀ o ∈ (of (bs.filter Bracket.isCurly)).opened, o.isCurly := fun o ho =>
        (List.mem_filter.1 (mem_opened_of ho)).2
      have hfilter : (bs ++ [b]).filter Bracket.isCurly = bs.filter Bracket.isCurly ++ [b] := by
        simp [hcurly]
      rw [hfilter, of_append_singleton, length_opened_meet hall hcurly]
      simp [Bracket.isGroup, hcurly, hown]
  refine ⟨?_, hbraces.trans howned.symm, ?_⟩
  · rw [hgroups, hg, of_append_singleton,
      excess_meet _ fun o hsame => by simp [Bracket.isGroup, Bracket.isCurly, hsame]]
  · rw [hbraces, of_append_singleton,
      excess_meet _ fun o hsame => by simp [Bracket.isCurly, hsame]]
    cases hcurly : b.isCurly with
    | false => simpa [Bracket.isGroup, hcurly] using hc
    | true =>
      simp only [Bracket.isGroup, hcurly]
      cases b.opens <;> simp <;> omega

/-- A flat character changes no counter. -/
theorem Counted.flat {bs : List Bracket} {s : StatementState} (h : Counted bs s) {ch : Char}
    (hch : StatementState.IsFlat ch) : Counted bs (s.count ch) := by
  rw [StatementState.count_of_isFlat s hch]
  exact ⟨h.groups, h.braces, h.curly⟩

/-! ## Pairs on both sides of a place -/

/-- The pairs that an offset divides. -/
def across (n : Nesting) (offset : Nat) : List (Bracket × Bracket) :=
  n.pairs.filter fun (o, c) => o.offset < offset && offset ≤ c.offset

/-- The open brackets that stand before an offset. -/
def openBefore (n : Nesting) (offset : Nat) : List Bracket :=
  n.opened.filter (·.offset < offset)

/-- A bracket behind the offset makes an open one before it one of a divided pair, or has
nothing to do with it. -/
theorem across_meet {n : Nesting} {b : Bracket} {offset : Nat} (h : offset ≤ b.offset) :
    ((n.meet b).across offset).length + ((n.meet b).openBefore offset).length =
      (n.across offset).length + (n.openBefore offset).length := by
  generalize hmeet : n.meet b = n'
  cases meets hmeet with
  | opens => simp [across, openBefore, Nat.not_lt.2 h]
  | @closes o rest _ opened =>
    by_cases hbefore : o.offset < offset
    · simp [across, openBefore, opened, hbefore, h]
      omega
    · simp [across, openBefore, opened, hbefore]
  | stray => rfl

/-- Between the brackets before an offset and those behind it, each pair that the offset
divides was open. -/
theorem across_of_append {bs cs : List Bracket} {offset : Nat}
    (hbefore : ∀ b ∈ bs, b.offset < offset) (hbehind : ∀ b ∈ cs, offset ≤ b.offset) :
    ((of (bs ++ cs)).across offset).length + ((of (bs ++ cs)).openBefore offset).length =
      (of bs).opened.length := by
  induction cs using List.reverseRecOn with
  | nil =>
    have hnone : (of bs).across offset = [] := by
      refine List.filter_eq_nil_iff.2 fun (o, c) hpair => ?_
      simp [hbefore c (mem_pairs_of hpair)]
    have hall : (of bs).openBefore offset = (of bs).opened :=
      List.filter_eq_self.2 fun o ho => by simpa using hbefore o (mem_opened_of ho)
    simp [hnone, hall]
  | append_singleton cs b ih =>
    rw [← List.append_assoc, of_append_singleton, across_meet (hbehind b (by simp))]
    exact ih fun x hx => hbehind x (List.mem_append_left _ hx)

end Nesting

/-! ## The brackets of a script -/

namespace Cursor

/-- The brackets ahead that stand outside of strings and comments. -/
def brackets (c : Cursor) : List Bracket :=
  match c.front .script with
  | .finish | .openRegion _ _ => []
  | .region _ after => after.cursor.brackets
  | .code ch after => (Bracket.at? c.offset ch).toList ++ after.cursor.brackets
termination_by c.rest.length
decreasing_by all_goals exact Cursor.Later.length_lt _

/-- Those of them that stand before an offset. -/
def bracketsBefore (c : Cursor) (offset : Nat) : List Bracket :=
  c.brackets.filter (·.offset < offset)

variable {c d doc : Cursor} {code : List Char}

theorem offset_le_of_mem_brackets {b : Bracket} (h : b ∈ c.brackets) : c.offset ≤ b.offset := by
  fun_induction brackets c with
  | case1 | case2 => cases h
  | case3 c kind after ahead ih => exact after.reaches.offset_le.trans (ih h)
  | case4 c ch after ahead ih =>
    rcases List.mem_append.1 h with h | h
    · exact (Bracket.offset_of_at? (Option.mem_toList.1 h)).ge
    · exact after.reaches.offset_le.trans (ih h)

/-- What is read from one cursor to another: its brackets, and how they are counted. -/
theorem Passes.exists_brackets (h : c.Passes .script code d) :
    ∃ bs, c.brackets = bs ++ d.brackets ∧ (∀ b ∈ bs, b.offset < d.offset) ∧
      ∀ {seen s}, Nesting.Counted seen s → Nesting.Counted (seen ++ bs) (s.countAll code) := by
  induction h with
  | refl c => exact ⟨[], rfl, by simp, fun {seen s} h => by rwa [List.append_nil]⟩
  | @region c d kind after code ahead more ih =>
    obtain ⟨bs, hbs, hbefore, hcounted⟩ := ih
    have hskip : c.brackets = after.cursor.brackets := by rw [brackets, ahead]
    exact ⟨bs, hskip.trans hbs, hbefore, hcounted⟩
  | @code c d ch after code ahead more ih =>
    obtain ⟨bs, hbs, hbefore, hcounted⟩ := ih
    have hstep : c.brackets = (Bracket.at? c.offset ch).toList ++ after.cursor.brackets := by
      rw [brackets, ahead]
    rw [hbs, ← List.append_assoc] at hstep
    refine ⟨_, hstep, fun b hb => ?_, fun {seen s} hseen => ?_⟩
    · rcases List.mem_append.1 hb with hb | hb
      · rw [Bracket.offset_of_at? (Option.mem_toList.1 hb)]
        exact (after.strictlyReaches.trans_reaches more.reaches).offset_lt
      · exact hbefore b hb
    · cases hch : Bracket.at? c.offset ch with
      | none => exact hcounted (hseen.flat (Bracket.isFlat_of_at?_eq_none hch))
      | some b =>
        have hmore := hcounted (hseen.bracket hch)
        rwa [List.append_assoc] at hmore

/-- Where the script can be read to, the brackets before are those that were read. -/
theorem Passes.brackets_eq (h : doc.Passes .script code c) :
    doc.brackets = doc.bracketsBefore c.offset ++ c.brackets ∧
      Nesting.Counted (doc.bracketsBefore c.offset) (StatementState.initial.countAll code) := by
  obtain ⟨bs, hbs, hbefore, hcounted⟩ := h.exists_brackets
  have hfilter : doc.bracketsBefore c.offset = bs := by
    have hall : bs.filter (·.offset < c.offset) = bs :=
      List.filter_eq_self.2 fun b hb => by simpa using hbefore b hb
    have hnone : c.brackets.filter (·.offset < c.offset) = [] :=
      List.filter_eq_nil_iff.2 fun b hb => by simpa using offset_le_of_mem_brackets hb
    rw [bracketsBefore, hbs, List.filter_append, hall, hnone, List.append_nil]
  rw [hfilter]
  exact ⟨hbs, hcounted Nesting.counted_initial⟩

/-! ## Cuts -/

/-- The brackets before an offset are taken for closed: no more groups are open than were
closed too often, and braces on their own are closed. -/
structure CountsAsClosed (doc : Cursor) (offset : Nat) : Prop where
  groups : (Nesting.of (doc.bracketsBefore offset)).excess Bracket.isGroup ≤ 0
  braces : (Nesting.of ((doc.bracketsBefore offset).filter Bracket.isCurly)).opened = []

theorem countsAsClosed_iff {s : StatementState}
    (h : Nesting.Counted (doc.bracketsBefore c.offset) s) :
    doc.CountsAsClosed c.offset ↔ s.isTopLevel := by
  have hbraces := h.braces
  simp only [StatementState.isTopLevel, Bool.and_eq_true, decide_eq_true_eq, h.groups]
  constructor
  · rintro ⟨hopen, hown⟩
    rw [hown] at hbraces
    exact ⟨hbraces, hopen⟩
  · rintro ⟨hnone, hlevel⟩
    exact ⟨hlevel, List.length_eq_zero_iff.1 (hbraces.symm.trans hnone)⟩

/-- Where brackets are taken for closed, no more are open than were closed too often. -/
theorem length_opened_le {s : StatementState} {bs : List Bracket} (h : Nesting.Counted bs s)
    (hlevel : s.isTopLevel) : (Nesting.of bs).opened.length ≤ (Nesting.of bs).stray.length := by
  have hgroup : Bracket.isGroup = fun b => decide ¬ b.isCurly = true := by
    funext b
    simp [Bracket.isGroup]
  have hsplit : ∀ l : List Bracket,
      l.length = l.countP Bracket.isCurly + l.countP Bracket.isGroup :=
    fun l => hgroup ▸ List.length_eq_countP_add_countP Bracket.isCurly
  simp only [StatementState.isTopLevel, Bool.and_eq_true, decide_eq_true_eq] at hlevel
  obtain ⟨hgroups, -, hcurly⟩ := h
  simp only [Nesting.excess] at hgroups hcurly
  rw [hsplit, hsplit]
  omega

/-- How cuts lie among the brackets of a script. -/
structure CountedCuts (doc : Cursor) : Prop where
  /-- In front of a cut brackets are taken for closed. -/
  closed : ∀ d ∈ statementCuts doc, doc.CountsAsClosed d.offset
  /-- For a semicolon that something follows, that is all it takes. -/
  semicolon : ∀ {code m} {after : m.Later}, doc.Passes .script code m →
    m.front .script = .code ';' after → after.cursor.rest ≠ [] →
      (after.cursor ∈ statementCuts doc ↔ doc.CountsAsClosed after.cursor.offset)
  /-- Each pair of brackets that a cut divides is made up for by a stray bracket before it. -/
  across : ∀ d ∈ statementCuts doc, ((Nesting.of doc.brackets).across d.offset).length ≤
    (Nesting.of (doc.bracketsBefore d.offset)).stray.length

/-- At each cut the search is outside of all brackets, as it counts them. -/
theorem counted_of_mem_statementCuts (h : d ∈ statementCuts doc) :
    ∃ code, doc.Passes .script code d ∧ (StatementState.initial.countAll code).isTopLevel := by
  obtain ⟨s, found, hfound, hlevel, -⟩ := exists_runs_of_mem_statementCuts h
  obtain ⟨code, hcode, hsame⟩ := hfound.passes
  exact ⟨code, hcode, hsame.isTopLevel ▸ hlevel⟩

theorem statementCuts_counted (doc : Cursor) : doc.CountedCuts where
  closed d hd := by
    obtain ⟨code, hcode, hlevel⟩ := counted_of_mem_statementCuts hd
    exact (countsAsClosed_iff hcode.brackets_eq.2).2 hlevel
  semicolon {code m after} hcode ahead hmore := by
    constructor
    · intro hd
      obtain ⟨code', hcode', hlevel⟩ := counted_of_mem_statementCuts hd
      exact (countsAsClosed_iff hcode'.brackets_eq.2).2 hlevel
    · intro hclosed
      obtain ⟨t, e, cuts, hruns, -, hstop⟩ := exists_run_statementCuts doc
      have hname : ∀ ch ∈ m.rest.head?, isNamePart ch = false := by
        rw [(front_code ahead).1]
        simp [isNamePart]
      obtain ⟨u, found, hfound⟩ := hruns.exists_at hstop hcode hname
      obtain ⟨code', hcode', hsame⟩ := hfound.passes
      have hpast : doc.Passes .script (code' ++ [';']) after.cursor :=
        hcode'.trans (.code ahead (.refl _))
      have hcount : StatementState.initial.countAll (code' ++ [';']) =
          (StatementState.initial.countAll code').count ';' := List.foldl_append ..
      have hlevel : (StatementState.initial.countAll code').isTopLevel := by
        have hbehind := (countsAsClosed_iff hpast.brackets_eq.2).1 hclosed
        rwa [hcount] at hbehind
      have hstep : u.Step m u.fresh after.cursor [after.cursor] :=
        .semicolon ahead (hsame.isTopLevel ▸ hlevel)
      exact mem_statementCuts_of_runs (hfound.trans hstep.runs) (by simp) hmore
  across d hd := by
    obtain ⟨code, hcode, hlevel⟩ := counted_of_mem_statementCuts hd
    obtain ⟨hsplit, hcounted⟩ := hcode.brackets_eq
    have hbefore : ∀ b ∈ doc.bracketsBefore d.offset, b.offset < d.offset := fun b hb => by
      simpa using (List.mem_filter.1 hb).2
    have hpairs := Nesting.across_of_append hbefore fun b => offset_le_of_mem_brackets (c := d)
    rw [← hsplit] at hpairs
    have := length_opened_le hcounted hlevel
    omega

/-- Behind a parenthesis in a regular expression a call is cut between its parentheses. -/
theorem statementCuts_counted_stray :
    let doc : Cursor := ⟨.start, "/)/; f(a; b)".toList⟩
    let d : Cursor := ⟨⟨9, 1, 10⟩, " b)".toList⟩
    d ∈ statementCuts doc ∧
      (Nesting.of doc.brackets).across d.offset = [(⟨.round, true, 6⟩, ⟨.round, false, 11⟩)] ∧
      1 ≤ (Nesting.of (doc.bracketsBefore d.offset)).stray.length := by
  intro doc d
  have hcut : d ∈ statementCuts doc := by decide +kernel
  have hpair : (Nesting.of doc.brackets).across d.offset =
      [(⟨.round, true, 6⟩, ⟨.round, false, 11⟩)] := by decide +kernel
  have hbound := (statementCuts_counted doc).across d hcut
  rw [hpair] at hbound
  exact ⟨hcut, hpair, hbound⟩

end Cursor

end Polyglot
