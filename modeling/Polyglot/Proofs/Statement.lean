-- SUMMARY: The cuts between the statements of a local script stand outside regions, braces and selectors.
import Polyglot.Proofs.Brace
import Polyglot.Proofs.Tiling
import Polyglot.Statement

/-!
# Statements of a script

A script whose braces match is divided only at cuts: places between two items of
its reading, at depth zero, in front of a line feed or behind a semicolon
(`Cursor.IsCut`). So its statements tile it, the text between any two cuts is
balanced, and no cut divides a selector in double braces.
-/

namespace Polyglot

/-! ## Cuts -/

/-- A text may be divided at `d`: it ends there, a line ends there, or a semicolon
stands in front of it. -/
def Cursor.IsStop (c d : Cursor) : Prop :=
  d.rest = [] ∨ d.rest.head? = some '\n' ∨ ∃ u, c.Consumes (u ++ [';']) d

/-- A script may be divided at `d`: outside regions and braces, between two statements. -/
structure Cursor.IsCut (c d : Cursor) : Prop where
  read : ∃ code, c.Passes .script code d ∧ braceDepth code = 0
  stop : c.IsStop d

namespace Cursor

theorem IsStop.later {c m d : Cursor} (h : c.IsStop d) (hcm : c.Reaches m)
    (hmd : ∃ ch text, m.Consumes (ch :: text) d) : m.IsStop d := by
  rcases h with hend | hline | ⟨u, hu⟩
  · exact .inl hend
  · exact .inr (.inl hline)
  · obtain ⟨v, hv⟩ := hcm
    obtain ⟨ch, text, hmd⟩ := hmd
    refine .inr (.inr ⟨(ch :: text).dropLast, ?_⟩)
    -- the last character before `d` is the semicolon
    have hsame : u ++ [';'] = v ++ (ch :: text) := hu.unique (hv.trans hmd)
    have hlast : (ch :: text).getLast (List.cons_ne_nil ch text) = ';' := by
      have hlasts := congrArg List.getLast? hsame
      rw [List.getLast?_concat, List.getLast?_append_of_ne_nil _ (List.cons_ne_nil ch text),
        List.getLast?_eq_some_getLast (List.cons_ne_nil ch text)] at hlasts
      exact (Option.some.inj hlasts).symm
    rw [← hlast, List.dropLast_concat_getLast]
    exact hmd

/-- Of a script whose braces match, no beginning closes one too many. -/
theorem Passes.sane {c d e : Cursor} {code total : List Char} (hread : c.Passes .script code d)
    (htotal : c.Passes .script total e) (hend : e.rest = []) (hmatch : BracesMatch total) :
    0 ≤ braceDepth code := by
  have hreach : d.Reaches e := by
    rcases hread.linear htotal with ⟨w, -, hw⟩ | ⟨w, -, hw⟩
    · exact hw.reaches
    · cases hw with
      | refl => exact .refl _
      | region ahead => simp [front_eq_finish_iff.2 hend] at ahead
      | code ahead => simp [front_eq_finish_iff.2 hend] at ahead
  obtain ⟨w, rfl, -⟩ := hread.onward htotal hreach
  exact hmatch.sane code (List.prefix_append code w)

/-- Between two cuts a script is balanced. -/
theorem IsCut.between {c a b e : Cursor} {code : List Char} (hcode : c.Passes .script code e)
    (hmatch : BracesMatch code) (ha : a = c ∨ c.IsCut a) (hb : c.IsCut b) (hab : a.Reaches b)
    (hbe : b.Reaches e) : ∃ part, a.Passes .script part b ∧ BracesMatch part := by
  obtain ⟨u, hu, hdepth⟩ : ∃ u, c.Passes .script u a ∧ braceDepth u = 0 := by
    rcases ha with rfl | ha
    · exact ⟨[], .refl _, rfl⟩
    · exact ha.read
  obtain ⟨v, hv, hdepth'⟩ := hb.read
  obtain ⟨part, rfl, hpart⟩ := hu.onward hv hab
  obtain ⟨more, rfl, -⟩ := hv.onward hcode hbe
  refine ⟨part, hpart, ?_, ?_⟩
  · intro p hp
    have := hmatch.sane (u ++ p)
      (((List.prefix_append_right_inj u).2 hp).trans (List.prefix_append _ more))
    rw [braceDepth_append, hdepth] at this
    omega
  · rw [braceDepth_append, hdepth] at hdepth'
    omega

/-- A cut that lies `u` behind the start of a script is one in a part of the script that
starts there and goes on with `t`. -/
theorem IsCut.alone {c₀ a b d e : Cursor} {total u t : List Char}
    (hread : c₀.Passes .script total e) (hmatch : BracesMatch total)
    (ha : a = c₀ ∨ c₀.IsCut a) (hbe : b.Reaches e) (hne : u ≠ []) (hd : c₀.IsCut d)
    (hu : a.Consumes u d) (ht : d.rest = t ++ b.rest) (hdb : d.Reaches b) :
    IsCut ⟨a.position, u ++ t⟩ ⟨d.position, t⟩ := by
  have hreach : c₀.Reaches a := by
    rcases ha with rfl | ha
    · exact .refl a
    · exact ha.read.choose_spec.1.reaches
  obtain ⟨part, hpart, hbraces⟩ :=
    IsCut.between hread hmatch ha hd ⟨u, hu⟩ (hdb.trans hbe)
  have hstands : StandsIn t d.rest := by
    cases t with
    | nil => exact .inl rfl
    | cons ch t => exact .inr (by rw [ht]; rfl)
  have halone := hpart.stands rfl hu.1 hstands a.position
  rw [← hu.2] at halone
  refine ⟨⟨part, halone, hbraces.settled⟩, ?_⟩
  obtain ⟨ch, x, rfl⟩ := List.exists_cons_of_ne_nil hne
  rcases hd.stop.later hreach ⟨ch, x, hu⟩ with hend | hline | ⟨v, hv⟩
  · exact .inl (List.append_eq_nil_iff.1 (ht.symm.trans hend)).1
  · rcases hstands with rfl | hhead
    · exact .inl rfl
    · exact .inr (.inl (hhead.trans hline))
  · exact .inr (.inr ⟨v, by rw [hu.unique hv], hv.2⟩)

/-! ## Names -/

theorem plain_of_isNamePart {ch : Char} (h : isNamePart ch) : GuardSet.script.Plain ch :=
  GuardSet.plain_of_class (by decide) (by decide) (by decide) (by decide) h

theorem braceDepth_of_isNamePart {u : List Char} (h : ∀ ch ∈ u, isNamePart ch) :
    braceDepth u = 0 :=
  braceDepth_of_class (by decide) (by decide) h

/-- The rest of a name is code without braces. -/
theorem passes_eatWhile_isNamePart (c : Cursor) :
    ∃ name, c.Consumes name (c.eatWhile isNamePart) ∧ (∀ ch ∈ name, isNamePart ch) ∧
      c.Passes .script name (c.eatWhile isNamePart) := by
  have hpart : ∀ ch ∈ c.rest.takeWhile isNamePart, isNamePart ch :=
    fun ch hch => List.all_eq_true.1 List.all_takeWhile ch hch
  have hread := consumes_eatWhile isNamePart c
  exact ⟨_, hread, hpart, hread.passes_of_plain fun ch hch => plain_of_isNamePart (hpart ch hch)⟩

end Cursor

/-! ## Finding the cuts -/

namespace StatementState

/-- A brace closed too many is not counted, but in a text whose braces match there is none. -/
theorem count_braces {s : StatementState} {n : Int} {ch : Char} (hs : (s.braces : Int) = n)
    (hn : 0 ≤ n + braceChange ch) : ((s.count ch).braces : Int) = n + braceChange ch := by
  unfold count
  split
  · simp only [braceChange_open]
    push_cast
    omega
  · simp only [braceChange_close] at hn ⊢
    omega
  all_goals simp_all [braceChange]

end StatementState

theorem braceDepth_append_blank {code : List Char} {ch : Char} (hch : isBlank ch) :
    braceDepth (code ++ [ch]) = braceDepth code := by
  have hwhite := isUnicodeSpace_of_isAsciiSpace (c := ch) (by simp [isAsciiSpace, hch])
  have hzero : braceDepth [ch] = 0 := braceDepth_of_isUnicodeSpace (by simpa using hwhite)
  rw [braceDepth_append, hzero, Int.add_zero]

/-- From `c` on, cuts were found and put in front of the earlier ones. They stand in order. -/
def FindsCuts (c₀ c : Cursor) (cuts result : List Cursor) : Prop :=
  ∃ more, result = more.reverse ++ cuts ∧ (c :: more).Pairwise Cursor.Reaches ∧
    ∀ d ∈ more, c₀.IsCut d

theorem FindsCuts.since {c₀ c d : Cursor} {cuts result : List Cursor}
    (h : FindsCuts c₀ d cuts result) (hcd : c.Reaches d) : FindsCuts c₀ c cuts result := by
  obtain ⟨more, hresult, horder, hcut⟩ := h
  rw [List.pairwise_cons] at horder
  refine ⟨more, hresult, List.pairwise_cons.2 ⟨?_, horder.2⟩, hcut⟩
  intro x hx
  exact hcd.trans (horder.1 x hx)

theorem FindsCuts.found {c₀ c d x : Cursor} {cuts result : List Cursor}
    (h : FindsCuts c₀ d (x :: cuts) result) (hcx : c.Reaches x) (hxd : x.Reaches d)
    (hx : c₀.IsCut x) : FindsCuts c₀ c cuts result := by
  obtain ⟨more, hresult, horder, hcut⟩ := h.since hxd
  refine ⟨x :: more, by simp [hresult], ?_, ?_⟩
  · refine List.pairwise_cons.2 ⟨?_, horder⟩
    intro y hy
    rcases List.mem_cons.1 hy with rfl | hy
    · exact hcx
    · exact hcx.trans ((List.pairwise_cons.1 horder).1 y hy)
  · intro y hy
    rcases List.mem_cons.1 hy with rfl | hy
    · exact hx
    · exact hcut y hy

/-- Of a script whose braces match, the cuts found from a cursor on are cuts. -/
theorem findsCuts_cutsFrom {c₀ e : Cursor} {total : List Char}
    (htotal : c₀.Passes .script total e) (hend : e.rest = []) (hmatch : BracesMatch total)
    {s : StatementState} {cuts : List Cursor} {c : Cursor} {code : List Char}
    (hread : c₀.Passes .script code c) (hbraces : (s.braces : Int) = braceDepth code) :
    FindsCuts c₀ c cuts (cutsFrom s cuts c) := by
  have hone : ∀ {code : List Char} {c : Cursor} {ch : Char} {after : c.Later},
      c₀.Passes .script code c → c.front .script = .code ch after →
      c₀.Passes .script (code ++ [ch]) after.cursor :=
    fun hread hfront => hread.trans (.code hfront (.refl _))
  -- nothing is closed too often, so counting a character keeps the count equal to the depth
  have hcount : ∀ {s : StatementState} {code : List Char} {ch : Char} {d : Cursor},
      (s.braces : Int) = braceDepth code → c₀.Passes .script (code ++ [ch]) d →
      ((s.count ch).braces : Int) = braceDepth (code ++ [ch]) := by
    intro s code ch d hbraces hread
    have hsane := hread.sane htotal hend hmatch
    rw [braceDepth_append] at hsane ⊢
    simpa using StatementState.count_braces hbraces (by simpa using hsane)
  fun_induction cutsFrom s cuts c generalizing code with
  | case1 => exact ⟨[], rfl, List.pairwise_singleton _ _, by simp⟩
  | case2 => exact ⟨[], rfl, List.pairwise_singleton _ _, by simp⟩
  | case3 s cuts c after hfront ih =>
    have hafter := hread.trans (.region hfront (.refl _))
    rw [List.append_nil] at hafter
    exact (ih hafter hbraces).since after.reaches
  | case4 s cuts c kind after _ hfront ih =>
    have hafter := hread.trans (.region hfront (.refl _))
    rw [List.append_nil] at hafter
    exact (ih hafter hbraces).since after.reaches
  | case5 s cuts c ch after hfront hch _ _ ih =>
    have hsame := hbraces.trans (braceDepth_append_blank hch).symm
    exact (ih (hone hread hfront) hsame).since after.reaches
  | case6 s cuts c ch after hfront hch hcut _ ih =>
    simp only [StatementState.isTopLevel, Bool.and_eq_true, decide_eq_true_eq] at hcut
    obtain ⟨⟨rfl, -⟩, hlevel, -⟩ := hcut
    have hfound := ih (hone hread hfront) (hbraces.trans (braceDepth_append_blank hch).symm)
    refine hfound.found (.refl c) after.reaches ⟨⟨code, hread, ?_⟩, .inr (.inl ?_)⟩
    · rw [← hbraces, hlevel]
      rfl
    · rw [(Cursor.front_code hfront).1]
      rfl
  | case7 s cuts c ch after hfront hch _ ih =>
    have hsame := hbraces.trans (braceDepth_append_blank hch).symm
    exact (ih (hone hread hfront) hsame).since after.reaches
  | case8 s cuts c ch after hfront _ hword past word =>
    rename_i ih
    obtain ⟨name, -, hname, hpast⟩ := Cursor.passes_eatWhile_isNamePart after.cursor
    have hne : ∀ x, isWordStart x = false → ch ≠ x := by
      rintro x hx rfl
      simp [hx] at hword
    have hchange : braceChange ch = 0 := by
      simp [braceChange, hne '{' (by decide), hne '}' (by decide)]
    have hread' : c₀.Passes .script (code ++ (ch :: name)) past.cursor :=
      hread.trans (.code hfront hpast)
    refine (ih hread' ?_).since past.reaches
    rw [braceDepth_append, braceDepth_cons, hchange, Cursor.braceDepth_of_isNamePart hname]
    simpa using hbraces
  | case9 s cuts c ch after hfront _ _ s' hcut =>
    rename_i ih
    have hafter := hone hread hfront
    have hbraces' : (s'.braces : Int) = braceDepth (code ++ [ch]) := hcount hbraces hafter
    simp only [StatementState.isTopLevel, Bool.and_eq_true, decide_eq_true_eq] at hcut
    obtain ⟨rfl, hlevel, -⟩ := hcut
    obtain ⟨u, hu⟩ := hread.reaches
    have hstop : c₀.Consumes (u ++ [';']) after.cursor := hu.trans (Cursor.front_code hfront)
    refine (ih hafter hbraces').found after.reaches (.refl _)
      ⟨⟨_, hafter, ?_⟩, .inr (.inr ⟨u, hstop⟩)⟩
    rw [← hbraces', hlevel]
    rfl
  | case10 s cuts c ch after hfront _ _ s' hcut =>
    rename_i ih
    have hafter := hone hread hfront
    exact (ih hafter (hcount hbraces hafter)).since after.reaches

/-- The statement cuts of a script whose braces match are cuts, in order. -/
theorem statementCuts_spec {c e : Cursor} {code : List Char} (hread : c.Passes .script code e)
    (hend : e.rest = []) (hmatch : BracesMatch code) :
    (c :: statementCuts c).Pairwise Cursor.Reaches ∧ ∀ d ∈ statementCuts c, c.IsCut d := by
  have hfound : FindsCuts c c [] (cutsFrom .initial [] c) :=
    findsCuts_cutsFrom hread hend hmatch (.refl c) rfl
  obtain ⟨more, hmore, horder, hcut⟩ := hfound
  have heq : statementCuts c = more.filter (!·.atEnd) := by
    rw [statementCuts, hmore, List.append_nil, List.filter_reverse, List.reverse_reverse]
  rw [heq]
  refine ⟨horder.sublist (List.filter_sublist.cons_cons c), ?_⟩
  intro d hd
  exact hcut d (List.mem_filter.1 hd).1

/-! ## Stretches -/

namespace Cursor

variable {c d : Cursor}

theorem Reaches.toEnd_eq (h : c.Reaches d) : d.toEnd = c.toEnd := by
  obtain ⟨text, hrest, hposition⟩ := h
  simp [toEnd, hrest, hposition]

theorem stretches_cons (h : c.Reaches d) (cuts : List Cursor) :
    c.stretches (d :: cuts) = (c, d) :: d.stretches cuts := by
  simp [stretches, h.toEnd_eq]

/-- To begin the first stretch earlier changes no other one. -/
theorem stretches_since {e : Cursor} {cuts : List Cursor} {more : List (Cursor × Cursor)}
    (h : c.Reaches d) (hd : d.stretches cuts = (d, e) :: more) :
    c.stretches cuts = (c, e) :: more := by
  cases cuts with
  | nil =>
    obtain ⟨rfl, rfl⟩ : d.toEnd = e ∧ more = [] := by simpa [stretches, eq_comm] using hd
    rw [h.toEnd_eq]
    rfl
  | cons x cuts =>
    obtain ⟨rfl, rfl⟩ : x = e ∧ List.zipWith Prod.mk (x :: cuts) (cuts ++ [d.toEnd]) = more := by
      simpa [stretches] using hd
    simp [stretches, h.toEnd_eq]

end Cursor

/-! ## Statements as fragments -/

namespace Fragment

/-- The part of a fragment between two cursors, if there is text between them. -/
def part? (u : Fragment) (c d : Cursor) : Option Fragment :=
  match c.textTo d with
  | [] => none
  | content =>
    some { u with id := 0, content := content, start := c.position, stop := d.position }

/-- The statements of a local script, as fragments of its frame. -/
def statements (u : Fragment) : List Fragment :=
  (u.cursor.stretches (statementCuts u.cursor)).filterMap fun (c, d) => u.part? c d

theorem part?_nil {u : Fragment} {c d : Cursor} (h : c.Consumes [] d) : u.part? c d = none := by
  unfold part?
  rw [h.textTo_eq]

theorem part?_text {u : Fragment} {c d : Cursor} {content : List Char}
    (h : c.Consumes content d) (hne : content ≠ []) :
    u.part? c d =
      some { u with id := 0, content := content, start := c.position, stop := d.position } := by
  unfold part?
  rw [h.textTo_eq]
  cases content with
  | nil => exact absurd rfl hne
  | cons => rfl

/-- The stretches between cursors that stand in order tile the text. -/
theorem tiles_stretches {P : Cursor → Prop} (u : Fragment) {c : Cursor} {cuts : List Cursor}
    (horder : (c :: cuts).Pairwise Cursor.Reaches) (hcuts : ∀ d ∈ cuts, P d)
    (hend : P c.toEnd) :
    Tiles P c ((c.stretches cuts).filterMap fun (a, b) => u.part? a b) c.toEnd := by
  -- one stretch, unless it is empty
  have hone : ∀ {c d e : Cursor} {fs : List Fragment}, c.Reaches d → P d → Tiles P d fs e →
      Tiles P c ((u.part? c d).toList ++ fs) e := by
    rintro c d e fs ⟨content, hread⟩ hd hmore
    by_cases hne : content = []
    · subst hne
      rw [part?_nil hread]
      exact hread.eq_of_nil ▸ hmore
    · rw [part?_text hread hne]
      exact .cons ⟨rfl, rfl, hread, hne⟩ hd hmore
  induction cuts generalizing c with
  | nil =>
    have htiles := hone c.reaches_toEnd hend (.nil _)
    have hstretches : c.stretches [] = [(c, c.toEnd)] := rfl
    rw [hstretches]
    cases hpart : u.part? c c.toEnd with
    | none => simpa [List.filterMap_cons, hpart] using htiles
    | some f => simpa [List.filterMap_cons, hpart] using htiles
  | cons d cuts ih =>
    obtain ⟨hfirst, horder⟩ := List.pairwise_cons.1 horder
    have hcd := hfirst d List.mem_cons_self
    have hmore := ih horder (fun x hx => hcuts x (List.mem_cons_of_mem d hx))
      (hcd.toEnd_eq ▸ hend)
    have := hone hcd (hcuts d List.mem_cons_self) hmore
    rw [hcd.toEnd_eq] at this
    rw [Cursor.stretches_cons hcd]
    cases hpart : u.part? c d with
    | none => simpa [List.filterMap_cons, hpart] using this
    | some f => simpa [List.filterMap_cons, hpart] using this

/-- The statements of a script whose braces match tile it, and they stop at cuts. -/
theorem tiles_statements {u : Fragment} {code : List Char} {e : Cursor}
    (hread : u.cursor.Passes .script code e) (hend : e.rest = []) (hmatch : BracesMatch code) :
    Tiles u.cursor.IsCut u.cursor u.statements e := by
  obtain ⟨horder, hcuts⟩ := statementCuts_spec hread hend hmatch
  have hsame : e = u.cursor.toEnd := by
    obtain ⟨w, hw⟩ := hread.reaches
    have hrest : u.cursor.rest = w := by rw [hw.1, hend, List.append_nil]
    rw [hw.eq_mk, hend, Cursor.toEnd, hrest]
  subst hsame
  exact tiles_stretches u horder hcuts ⟨⟨code, hread, hmatch.settled⟩, .inl hend⟩

/-- What lies between two cuts is a script of its own, and its statements still stop at cuts. -/
theorem Tiles.alone {c₀ a b e : Cursor} {total text : List Char} {fs : List Fragment}
    (hread : c₀.Passes .script total e) (hmatch : BracesMatch total)
    (ha : a = c₀ ∨ c₀.IsCut a) (hbe : b.Reaches e) (h : Tiles c₀.IsCut a fs b)
    (htext : a.Consumes text b) :
    Tiles (Cursor.IsCut ⟨a.position, text⟩) ⟨a.position, text⟩ fs ⟨b.position, []⟩ := by
  suffices ∀ {c : Cursor} {u t : List Char}, a.Consumes u c → c.rest = t ++ b.rest →
      Tiles c₀.IsCut c fs b → text = u ++ t →
      Tiles (Cursor.IsCut ⟨a.position, text⟩) ⟨c.position, t⟩ fs ⟨b.position, []⟩ from
    this (.refl a) htext.1 h rfl
  clear h
  intro c u t hu ht hfs htext
  induction fs generalizing c u t with
  | nil =>
    cases hfs
    obtain rfl : t = [] := by simpa using ht
    exact .nil _
  | cons f fs ih =>
    cases hfs with
    | @cons _ d _ _ _ covers cut more =>
      have hrest : t = f.content ++ (fs.map content).flatten := by
        have happend : t ++ b.rest = f.content ++ (fs.map content).flatten ++ b.rest := by
          rw [← ht, covers.read.1, more.consumes.1, List.append_assoc]
        exact List.append_cancel_right happend
      have hmore : d.rest = (fs.map content).flatten ++ b.rest := more.consumes.1
      have hud := hu.trans covers.read
      have hnext := ih hud hmore more (by rw [htext, hrest, List.append_assoc])
      have hd := cut.alone hread hmatch ha hbe (List.append_ne_nil_of_right_ne_nil u covers.text)
        hud hmore ⟨_, more.consumes⟩
      rw [List.append_assoc, ← hrest, ← htext] at hd
      have hcovers : f.Covers ⟨c.position, t⟩ ⟨d.position, (fs.map content).flatten⟩ :=
        ⟨covers.start, covers.stop, ⟨hrest, covers.read.2⟩, covers.text⟩
      exact .cons hcovers hd hnext

/-! ## Cuts divide no selector -/

theorem takeBytes_prefix (n : Nat) (text : List Char) : takeBytes n text <+: text :=
  ⟨(splitBytes n text).2, splitBytes_append n text⟩

/-- Behind the last double brace, a text keeps the character that it ends in. -/
theorem afterLastOpening_concat {x : Char} (hx : x ≠ '{') (last : Option (List Char))
    (text : List Char) : afterLastOpening last (text ++ [x]) = last ∨
      ∃ s, afterLastOpening last (text ++ [x]) = some (s ++ [x]) := by
  induction text generalizing last with
  | nil =>
    left
    simp [afterLastOpening]
  | cons c text ih =>
    rw [List.cons_append, afterLastOpening]
    split
    · next hopen =>
      right
      rcases ih (some (text ++ [x]).tail) with h | ⟨s, hs⟩
      · cases text with
        | nil => simp [hx] at hopen
        | cons y text => exact ⟨text, by simpa using h⟩
      · exact ⟨s, hs⟩
    · exact ih last

theorem dividedSelector_of_semicolon (window : Nat) (text head : List Char) :
    dividedSelector (lastBytes window (text ++ [';'])) head = none := by
  have hlast : lastBytes window (text ++ [';']) = [] ∨
      ∃ s, lastBytes window (text ++ [';']) = s ++ [';'] := by
    have hprefix := takeBytes_prefix window (text ++ [';']).reverse
    rw [List.reverse_append, List.reverse_singleton, List.singleton_append,
      List.prefix_cons_iff] at hprefix
    unfold lastBytes
    rw [List.reverse_append, List.reverse_singleton, List.singleton_append]
    rcases hprefix with h | ⟨s, h, -⟩
    · exact .inl (by rw [h]; rfl)
    · exact .inr ⟨s.reverse, by rw [h, List.reverse_cons]⟩
  have hall : ((afterLastOpening none (lastBytes window (text ++ [';']))).any
      (·.all isSelectorChar)) = false := by
    rcases hlast with h | ⟨s, h⟩
    · rw [h]
      rfl
    · rw [h]
      rcases afterLastOpening_concat (x := ';') (by decide) none s with h' | ⟨t, h'⟩
      · rw [h']
        rfl
      · have hsemi : isSelectorChar ';' = false := by decide
        simp [h', hsemi]
  unfold dividedSelector
  rw [hall]
  rfl

theorem dividedSelector_of_newline {head : List Char} (h : head.head?.all (· = '\n'))
    (tail : List Char) : dividedSelector tail head = none := by
  have hnone : head.takeWhile isSelectorChar = [] := by
    cases head with
    | nil => rfl
    | cons ch head =>
      obtain rfl : ch = '\n' := by simpa using h
      rfl
  unfold dividedSelector
  split
  · simp only [hnone, List.length_nil, List.drop_zero]
    cases head with
    | nil => rfl
    | cons ch head =>
      obtain rfl : ch = '\n' := by simpa using h
      rfl
  · rfl

/-- A cut divides no selector in double braces. -/
theorem divided_of_isCut {c a b d : Cursor} {f g : Fragment} (hcut : c.IsCut b)
    (ha : c.Reaches a) (hf : f.Covers a b) (hg : g.Covers b d) (window : Nat) :
    Divided window f g := by
  obtain ⟨x, more, hx⟩ := List.exists_cons_of_ne_nil hf.text
  have hstop := hcut.stop.later ha ⟨x, more, hx ▸ hf.read⟩
  rcases hstop with hend | hline | ⟨u, hu⟩
  · have := hg.read.1
    rw [hend] at this
    simp [hg.text] at this
  · apply dividedSelector_of_newline
    obtain ⟨y, text, hy⟩ := List.exists_cons_of_ne_nil hg.text
    have hfirst : y = '\n' := by
      have := hg.read.1
      rw [hy] at this
      rw [this] at hline
      simpa using hline
    rcases List.prefix_cons_iff.1 (hy ▸ takeBytes_prefix window g.content) with h | ⟨t, h, -⟩
    · rw [hy, h]
      rfl
    · rw [hy, h, hfirst]
      rfl
  · rw [Divided, hf.read.unique hu]
    exact dividedSelector_of_semicolon window u _

end Fragment

end Polyglot
