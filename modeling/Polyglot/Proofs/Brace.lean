-- SUMMARY: Balanced texts: matched braces, and what is left of a balanced text when its end is trimmed.
import Polyglot.Brace
import Polyglot.Context
import Polyglot.Proofs.Reading
import Polyglot.Text.Trim

/-!
# Balanced texts

The depth of a text is a matter of the characters of code that a reading meets.
So what `Cursor.matchingClose` finds to be the body of a block is balanced when it
is read on its own, from any place (`Cursor.Passes.balanced`), and it stays so when
white space is trimmed from its end (`Cursor.Passes.trimmed`).
-/

namespace Polyglot

/-! ## Depth -/

/-- What a character of code adds to the depth. -/
def braceChange (ch : Char) : Int := if ch = '{' then 1 else if ch = '}' then -1 else 0

@[simp] theorem braceChange_open : braceChange '{' = 1 := rfl

@[simp] theorem braceChange_close : braceChange '}' = -1 := rfl

/-- How many more braces than it closes a list of characters of code opens. -/
def braceDepth : List Char → Int
  | [] => 0
  | ch :: code => braceChange ch + braceDepth code

@[simp] theorem braceDepth_nil : braceDepth [] = 0 := rfl

@[simp] theorem braceDepth_cons (ch : Char) (code : List Char) :
    braceDepth (ch :: code) = braceChange ch + braceDepth code := rfl

@[simp] theorem braceDepth_append (u v : List Char) :
    braceDepth (u ++ v) = braceDepth u + braceDepth v := by
  induction u with
  | nil => simp
  | cons ch u ih => simp [ih, Int.add_assoc]

theorem braceDepth_eq_zero {code : List Char} (h : ∀ ch ∈ code, ch ≠ '{' ∧ ch ≠ '}') :
    braceDepth code = 0 := by
  induction code with
  | nil => rfl
  | cons ch code ih =>
    obtain ⟨hopen, hclose⟩ := h ch List.mem_cons_self
    rw [braceDepth_cons, ih fun x hx => h x (List.mem_cons_of_mem ch hx)]
    simp [braceChange, hopen, hclose]

/-- A class of characters without braces. -/
theorem braceDepth_of_class {q : Char → Bool} (hopen : q '{' = false) (hclose : q '}' = false)
    {code : List Char} (h : ∀ ch ∈ code, q ch) : braceDepth code = 0 := by
  apply braceDepth_eq_zero
  intro ch hch
  have hq := h ch hch
  constructor
  · rintro rfl
    simp [hopen] at hq
  · rintro rfl
    simp [hclose] at hq

/-- A bound for the depth after every beginning of `code` is one for the text with a
character in front. -/
theorem le_braceDepth_cons {k n : Int} {ch : Char} {code : List Char} (hstart : k ≤ n)
    (h : ∀ p, p <+: code → k ≤ n + braceChange ch + braceDepth p) (p : List Char)
    (hp : p <+: ch :: code) : k ≤ n + braceDepth p := by
  rcases List.prefix_cons_iff.1 hp with rfl | ⟨q, rfl, hq⟩
  · simpa using hstart
  · rw [braceDepth_cons, ← Int.add_assoc]
    exact h q hq

/-- No brace is closed before it was opened, and every brace is closed. -/
structure BracesMatch (code : List Char) : Prop where
  sane : ∀ p, p <+: code → 0 ≤ braceDepth p
  settled : braceDepth code = 0

/-! ## Reading a text on its own -/

/-- The region that is left open where the text ahead ends, if one is. -/
def Cursor.leftOpen (set : GuardSet) (c : Cursor) : Option GuardIssue :=
  match c.front set with
  | .finish => none
  | .openRegion issue _ => some issue
  | .region _ after => leftOpen set after.cursor
  | .code _ after => leftOpen set after.cursor
termination_by c.rest.length
decreasing_by all_goals exact Cursor.Later.length_lt _

/-- A text is balanced on its own: it closes what it opens, no beginning of it closes
more, and no string or comment is left open at its end. -/
structure BraceBalanced (set : GuardSet) (text : List Char) : Prop where
  net : netDepth set text = 0
  sane : ∀ p, p <+: text → 0 ≤ netDepth set p
  closed : Cursor.leftOpen set ⟨.start, text⟩ = none

namespace Cursor

variable {set : GuardSet}

theorem Passes.netDepthFrom_eq {c d : Cursor} {code : List Char} (h : c.Passes set code d)
    (net : Int) : netDepthFrom set net c = netDepthFrom set (net + braceDepth code) d := by
  induction h generalizing net with
  | refl => simp
  | region ahead _ ih =>
    rw [netDepthFrom, ahead]
    exact ih net
  | @code c d ch after code ahead _ ih =>
    rw [netDepthFrom, ahead, braceDepth_cons, ← Int.add_assoc]
    exact ih _

theorem netDepthFrom_nil (net : Int) (p : Position) : netDepthFrom set net ⟨p, []⟩ = net := by
  rw [netDepthFrom, front_eq_finish_iff.2 rfl]

theorem Passes.leftOpen_eq_none {c d : Cursor} {code : List Char} (h : c.Passes set code d)
    (hd : d.rest = []) : leftOpen set c = none := by
  induction h with
  | refl => rw [leftOpen, front_eq_finish_iff.2 hd]
  | region ahead _ ih =>
    rw [leftOpen, ahead]
    exact ih hd
  | code ahead _ ih =>
    rw [leftOpen, ahead]
    exact ih hd

/-- The beginning of a region changes no depth. -/
theorem netDepthFrom_cut_region {kind : GuardKind} {u v : List Char}
    (h : IsRegion set kind (u ++ v)) (hu : u ≠ []) (hv : v ≠ []) (net : Int) (p : Position) :
    netDepthFrom set net ⟨p, u⟩ = net := by
  rcases front_cut_region h hu hv p with ⟨issue, after, hfront⟩ | ⟨-, hregion⟩ |
      ⟨ch, after, rfl, hch, hfront⟩
  · rw [netDepthFrom, hfront]
  · rw [(hregion.passes_alone p).netDepthFrom_eq, braceDepth_nil, Int.add_zero, netDepthFrom_nil]
  · have hafter : after.cursor.rest = [] := by
      have := (front_code hfront).1
      simpa using this.symm
    have hread : Passes set ⟨p, [ch]⟩ [ch] after.cursor := .code hfront (.refl _)
    rw [hread.netDepthFrom_eq, netDepthFrom, front_eq_finish_iff.2 hafter]
    rcases hch with rfl | rfl <;> simp [braceChange]

/-- A text whose braces match, read to its end, is balanced on its own. Where the
text is cut off inside a region, the depth is that in front of the region. -/
theorem Passes.balanced {c d : Cursor} {code text : List Char} (h : c.Passes set code d)
    (hgen : set.generatorComments = false) (hread : c.Consumes text d) (hmatch : BracesMatch code) :
    BraceBalanced set text := by
  have halone : Passes set ⟨.start, text⟩ code ⟨Position.start.advanceOver text, []⟩ := by
    have := h.stands hgen hread.1 (.inl rfl) .start
    rwa [List.append_nil] at this
  refine ⟨?_, ?_, halone.leftOpen_eq_none rfl⟩
  · rw [netDepth, halone.netDepthFrom_eq, netDepthFrom_nil, hmatch.settled]
    rfl
  · rintro u ⟨v, rfl⟩
    have hpoint : Point set ⟨.start, u ++ v⟩ ⟨Position.start.advanceOver (u ++ v), []⟩ code u v :=
      halone.point (by simp)
    cases hpoint with
    | @between code₁ code₂ split before behind =>
      have hbefore : Passes set ⟨.start, u ++ []⟩ code₁ ⟨Position.start.advanceOver u, []⟩ :=
        before.stands hgen (u := u) (by simp) (.inl rfl) .start
      rw [List.append_nil] at hbefore
      rw [netDepth, hbefore.netDepthFrom_eq, netDepthFrom_nil, Int.zero_add]
      exact hmatch.sane code₁ ⟨code₂, split.symm⟩
    | @inside kind code₁ code₂ a x y z split hu hv hx hy region before behind =>
      have hbefore : Passes set ⟨.start, a ++ x⟩ code₁ ⟨Position.start.advanceOver a, x⟩ := by
        refine before.stands hgen (u := a) (by simp [hu]) (.inr ?_) .start
        cases x with
        | nil => exact absurd rfl hx
        | cons ch x => rfl
      rw [netDepth, hu, hbefore.netDepthFrom_eq, netDepthFrom_cut_region region hx hy, Int.zero_add]
      exact hmatch.sane code₁ ⟨code₂, split.symm⟩

/-! ## Bodies of blocks -/

/-- How a search for the closing brace ends at `d`, where `depth` braces are open. -/
inductive Halts (set : GuardSet) (depth : Nat) (d : Cursor) :
    Except (Nat × Option GuardIssue) Cursor → Prop where
  | closed {after : d.Later} (last : depth ≤ 1) (ahead : d.front set = .code '}' after) :
      Halts set depth d (.ok d)
  | finish (ahead : d.front set = .finish) : Halts set depth d (.error (depth, none))
  | openRegion {issue : GuardIssue} {atEnd : d.Later} (ahead : d.front set = .openRegion issue atEnd) :
      Halts set depth d (.error (depth, some issue))

/-- What a search for the closing brace meets on the way: from no point on are less braces
open than the one it closes. -/
theorem closeFrom_walk (set : GuardSet) {depth : Nat} (c : Cursor) (hdepth : 1 ≤ depth) :
    ∃ code d, ∃ left : Nat, c.Passes set code d ∧ (∀ p, p <+: code → 1 ≤ depth + braceDepth p) ∧
      left = depth + braceDepth code ∧ Halts set left d (closeFrom set depth c) := by
  have hnil : ∀ {depth : Nat}, 1 ≤ depth → ∀ p, p <+: [] → 1 ≤ depth + braceDepth p := by
    intro depth hdepth p hp
    rw [List.prefix_nil.1 hp, braceDepth_nil]
    omega
  fun_induction closeFrom set depth c with
  | case1 depth c hfront => exact ⟨[], c, depth, .refl c, hnil hdepth, by simp, .finish hfront⟩
  | case2 depth c issue atEnd hfront =>
    exact ⟨[], c, depth, .refl c, hnil hdepth, by simp, .openRegion hfront⟩
  | case3 depth c kind after hfront ih =>
    obtain ⟨code, d, left, hread, hsane, hnet, hhalts⟩ := ih hdepth
    exact ⟨code, d, left, .region hfront hread, hsane, hnet, hhalts⟩
  | case4 depth c after hfront ih =>
    obtain ⟨code, d, left, hread, hsane, hnet, hhalts⟩ := ih (by omega)
    push_cast at hsane hnet
    refine ⟨'{' :: code, d, left, .code hfront hread, ?_, ?_, hhalts⟩
    · exact le_braceDepth_cons (by omega) hsane
    · rw [braceDepth_cons, braceChange_open]
      omega
  | case5 depth c after hlast hfront =>
    exact ⟨[], c, depth, .refl c, hnil hdepth, by simp, .closed hlast hfront⟩
  | case6 depth c after hmore hfront _ ih =>
    obtain ⟨code, d, left, hread, hsane, hnet, hhalts⟩ := ih (by omega)
    have hcast : ((depth - 1 : Nat) : Int) = depth + braceChange '}' := by
      rw [braceChange_close]
      omega
    rw [hcast] at hsane hnet
    refine ⟨'}' :: code, d, left, .code hfront hread, ?_, ?_, hhalts⟩
    · exact le_braceDepth_cons (by omega) hsane
    · rw [braceDepth_cons]
      omega
  | case7 depth c ch after hfront hopen hclose ih =>
    obtain ⟨code, d, left, hread, hsane, hnet, hhalts⟩ := ih hdepth
    have hchange : braceChange ch = 0 := by simp [braceChange, hopen, hclose]
    refine ⟨ch :: code, d, left, .code hfront hread, ?_, ?_, hhalts⟩
    · apply le_braceDepth_cons (by omega)
      simpa [hchange] using hsane
    · rw [braceDepth_cons, hchange]
      omega

/-- A search that succeeds ends on a closing brace, where one brace is open. -/
theorem closeFrom_ok {depth : Nat} {c d : Cursor} (h : closeFrom set depth c = .ok d)
    (hdepth : 1 ≤ depth) :
    ∃ code, c.Passes set code d ∧ (∃ after, d.front set = .code '}' after) ∧
      (∀ p, p <+: code → 1 ≤ depth + braceDepth p) ∧ depth + braceDepth code = 1 := by
  obtain ⟨code, e, left, hread, hsane, hnet, hhalts⟩ := closeFrom_walk set c hdepth
  rw [h] at hhalts
  cases hhalts with
  | closed last ahead =>
    have hopen := hsane code List.prefix_rfl
    exact ⟨code, hread, ⟨_, ahead⟩, hsane, by omega⟩

end Cursor

/-! ## White space at the ends of a body -/

/-- The first byte of an ASCII character is its number; that of any other is no ASCII number. -/
theorem firstByte_toNat (ch : Char) :
    ch.toNat < 0x80 ∧ (firstByte ch).toNat = ch.toNat ∨
      0x80 ≤ ch.toNat ∧ 0x80 ≤ (firstByte ch).toNat := by
  have hval : ch.val.toNat = ch.toNat := rfl
  unfold firstByte String.utf8EncodeChar
  simp only [hval]
  split
  · left
    simp only [List.headD_cons, UInt8.toNat_ofNat']
    omega
  · right
    split
    · simp only [List.headD_cons, UInt8.toNat_ofNat']
      omega
    · split
      · simp only [List.headD_cons, UInt8.toNat_ofNat']
        omega
      · simp only [List.headD_cons, UInt8.toNat_ofNat']
        omega

/-- An ASCII character is told by its first byte. -/
theorem eq_of_firstByte_eq {ch q : Char} (hq : q.toNat < 0x80)
    (h : firstByte ch = firstByte q) : ch = q := by
  have hbyte := congrArg UInt8.toNat h
  rw [← Char.toNat_inj]
  rcases firstByte_toNat ch with ⟨-, hch⟩ | ⟨-, hch⟩
  · rcases firstByte_toNat q with ⟨-, hq'⟩ | ⟨hlarge, -⟩
    · rw [← hch, ← hq', hbyte]
    · omega
  · rcases firstByte_toNat q with ⟨-, hq'⟩ | ⟨hlarge, -⟩
    · omega
    · omega

/-- Quotes are ASCII characters, and none of them is white. -/
theorem quote_spec {q : Char} (h : q ∈ GuardSet.script.quotes) :
    q.toNat < 0x80 ∧ isUnicodeSpace q = false := by
  simp only [GuardSet.script, List.mem_cons, List.not_mem_nil, or_false] at h
  rcases h with rfl | rfl | rfl
  · decide
  · decide
  · decide

/-- No quote begins with the byte that a white space character begins with. -/
theorem firstByte_ne_of_isUnicodeSpace {ch q : Char} (h : isUnicodeSpace ch)
    (hq : q ∈ GuardSet.script.quotes) : firstByte ch ≠ firstByte q := by
  obtain ⟨hascii, hsolid⟩ := quote_spec hq
  intro hbyte
  rw [eq_of_firstByte_eq hascii hbyte, hsolid] at h
  cases h

theorem Context.quotes_subset (context : Context) :
    context.guardSet.quotes ⊆ GuardSet.script.quotes := by
  cases context <;> simp [guardSet, GuardSet.template, GuardSet.style, GuardSet.script,
    GuardSet.raw]

theorem Context.generatorComments_of_not_isTemplate {context : Context}
    (h : ¬ context.isTemplate) : context.guardSet.generatorComments = false := by
  revert h
  cases context <;> decide

/-- White space is code under every guard set. -/
theorem GuardSet.plain_of_isUnicodeSpace {set : GuardSet}
    (hset : set.quotes ⊆ GuardSet.script.quotes) {ch : Char} (h : isUnicodeSpace ch) :
    set.Plain ch := by
  have hne : ∀ x, isUnicodeSpace x = false → ch ≠ x := by
    rintro x hx rfl
    simp [hx] at h
  exact plain_of (fun hq => firstByte_ne_of_isUnicodeSpace h (hset hq) rfl) (hne '/' (by decide))
    (.inl (hne '-' (by decide)))

theorem braceDepth_of_isUnicodeSpace {code : List Char} (h : ∀ ch ∈ code, isUnicodeSpace ch) :
    braceDepth code = 0 :=
  braceDepth_of_class (by decide) (by decide) h

/-- A region ends in a slash or a quote, unless it ends with its line. -/
theorem IsRegion.last {set : GuardSet} (hset : set.quotes ⊆ GuardSet.script.quotes)
    {kind : GuardKind} {u : List Char} {ch : Char} (h : IsRegion set kind (u ++ [ch]))
    (hkind : ¬ kind.isLine) : ch = '/' ∨ ch ∈ GuardSet.script.quotes := by
  generalize hw : u ++ [ch] = w at h
  cases h with
  | @string q w p p' quote closed =>
    obtain ⟨v, e, hv, he, -⟩ := Cursor.stringEnd_eq_some closed
    have hlast : u ++ [ch] = q :: v ++ [e] := by simp [hw, hv]
    obtain rfl : ch = e := by simpa using List.append_inj_right' hlast rfl
    rw [eq_of_firstByte_eq (quote_spec (hset quote)).1 he]
    exact .inr (hset quote)
  | @blockComment w p p' code on closed =>
    obtain ⟨v, r, hv, hr, -⟩ := Cursor.findFrom_eq_some closed
    have hr' : r = [] := by simpa using hr
    have hlast : u ++ [ch] = '/' :: '*' :: v ++ ['*'] ++ ['/'] := by simp [hw, hv, hr']
    exact .inl (by simpa using List.append_inj_right' hlast rfl)
  | lineComment => exact absurd rfl hkind
  | generatorComment => exact absurd rfl hkind

/-- A region does not end in white space, unless it ends with its line. -/
theorem IsRegion.not_isUnicodeSpace {set : GuardSet} (hset : set.quotes ⊆ GuardSet.script.quotes)
    {kind : GuardKind} {u : List Char} {ch : Char} (h : IsRegion set kind (u ++ [ch]))
    (hkind : ¬ kind.isLine) : isUnicodeSpace ch = false := by
  have hlast := h.last hset hkind
  simp only [GuardSet.script, List.mem_cons, List.not_mem_nil, or_false] at hlast
  rcases hlast with rfl | rfl | rfl | rfl
  · decide
  · decide
  · decide
  · decide

/-- A comment that ends with its line stays one when white space is cut off its end. -/
theorem IsRegion.cut_space {set : GuardSet} {kind : GuardKind} {x y : List Char}
    (h : IsRegion set kind (x ++ y)) (hkind : kind.isLine) (hx : x ≠ [])
    (hspace : ∀ ch ∈ y, isUnicodeSpace ch) : IsRegion set kind x := by
  generalize hw : x ++ y = w at h
  obtain ⟨ch, x, rfl⟩ := List.exists_cons_of_ne_nil hx
  -- the second character of the comment is not white, so it was not cut off
  have second : ∀ s w, isUnicodeSpace s = false → x ++ y = s :: w →
      ∃ t, x = s :: t ∧ t ++ y = w := by
    intro s w hs hxy
    cases x with
    | nil =>
      have : isUnicodeSpace s := hspace s (by rw [← List.nil_append y, hxy]; simp)
      simp [hs] at this
    | cons c t =>
      obtain ⟨rfl, ht⟩ : c = s ∧ t ++ y = w := by simpa using hxy
      exact ⟨t, rfl, ht⟩
  cases h with
  | string => cases hkind
  | blockComment => cases hkind
  | @lineComment w code on line =>
    obtain ⟨rfl, hxy⟩ : ch = '/' ∧ x ++ y = '/' :: w := by simpa using hw
    obtain ⟨t, rfl, rfl⟩ := second _ _ (by decide) hxy
    exact .lineComment code on fun hn => line (List.mem_append_left y hn)
  | @generatorComment w code on blank line =>
    obtain ⟨rfl, hxy⟩ : ch = '-' ∧ x ++ y = '-' :: w := by simpa using hw
    obtain ⟨t, rfl, rfl⟩ := second _ _ (by decide) hxy
    refine .generatorComment code on ?_ fun hn => line (List.mem_append_left y hn)
    cases t with
    | nil => rfl
    | cons c t => simpa using blank

namespace Cursor

variable {set : GuardSet}

/-- The body of a block begins behind the blanks after its brace and ends in front of
the brace that closes it. Its braces match. -/
theorem exists_body (hset : set.quotes ⊆ GuardSet.script.quotes) {inside close : Cursor}
    (h : closeFrom set 1 inside = .ok close) :
    ∃ code, inside.skipBlank.Passes set code close ∧ BracesMatch code ∧ close.rest ≠ [] := by
  obtain ⟨code, hread, ⟨after, hclose⟩, hsane, hnet⟩ := closeFrom_ok h (Nat.le_refl 1)
  have hrest : close.rest ≠ [] := by simp [(front_code hclose).1]
  have hspace : ∀ ch ∈ inside.rest.takeWhile isBlank, isUnicodeSpace ch := by
    intro ch hch
    have := List.all_eq_true.1 List.all_takeWhile ch hch
    exact isUnicodeSpace_of_isAsciiSpace (by simp [isAsciiSpace, this])
  have hblank : inside.Passes set (inside.rest.takeWhile isBlank) inside.skipBlank :=
    (consumes_eatWhile isBlank inside).passes_of_plain
      fun ch hch => GuardSet.plain_of_isUnicodeSpace hset (hspace ch hch)
  have hzero := braceDepth_of_isUnicodeSpace hspace
  rcases hblank.linear hread with ⟨body, rfl, hbody⟩ | ⟨w, hw, hback⟩
  · refine ⟨body, hbody, ⟨?_, ?_⟩, hrest⟩
    · intro p hp
      have := hsane _ ((List.prefix_append_right_inj _).2 hp)
      rw [braceDepth_append, hzero] at this
      omega
    · rw [braceDepth_append, hzero] at hnet
      omega
  · -- the closing brace is no blank, so it stands where the blanks end
    cases hback with
    | refl => exact ⟨[], .refl _, ⟨fun p hp => by simp [List.prefix_nil.1 hp], rfl⟩, hrest⟩
    | region ahead => simp [hclose] at ahead
    | @code _ _ ch _ _ ahead _ =>
      rw [hclose] at ahead
      cases ahead
      have := hspace '}' (by rw [hw]; simp)
      exact absurd this (by decide)

/-- White space may be trimmed from the end of a text that was read: what is left is
read to its end, and the code that is lost is white. -/
theorem Passes.trimmed {c d : Cursor} {code u space : List Char} (h : c.Passes set code d)
    (hset : set.quotes ⊆ GuardSet.script.quotes) (hgen : set.generatorComments = false)
    (hread : c.Consumes (u ++ space) d) (hspace : ∀ ch ∈ space, isUnicodeSpace ch) :
    ∃ code₁ code₂, code = code₁ ++ code₂ ∧ (∀ ch ∈ code₂, isUnicodeSpace ch) ∧
      Passes set ⟨c.position, u⟩ code₁ ⟨c.position.advanceOver u, []⟩ := by
  cases h.point (u := u) (v := space) (by rw [hread.1, List.append_assoc]) with
  | @between code₁ code₂ split before behind =>
    refine ⟨code₁, code₂, split, fun ch hch => hspace ch ?_, ?_⟩
    · refine behind.mem_of_mem ⟨rfl, ?_⟩ hch
      rw [hread.2, Position.advanceOver_append]
    · have := before.stands hgen (u := u) (by rw [hread.1, List.append_assoc]) (.inl rfl) c.position
      rwa [List.append_nil] at this
  | @inside kind code₁ code₂ a x y z split hu hv hx hy region before behind =>
    have hwhite : ∀ ch ∈ y, isUnicodeSpace ch := fun ch hch =>
      hspace ch (hv ▸ List.mem_append_left z hch)
    have hkind : kind.isLine := by
      refine Decidable.byContradiction fun hkind => ?_
      rw [← List.dropLast_concat_getLast hy, ← List.append_assoc] at region
      have := region.not_isUnicodeSpace hset hkind
      simp [hwhite _ (List.getLast_mem hy)] at this
    have hline := (region.cut_space hkind hx hwhite).passes_alone (c.position.advanceOver a)
    have hbefore : Passes set ⟨c.position, a ++ x⟩ code₁ ⟨c.position.advanceOver a, x⟩ := by
      refine before.stands hgen ?_ (.inr ?_) c.position
      · rw [hread.1, hu, hv]
        simp
      · cases x with
        | nil => exact absurd rfl hx
        | cons ch x => rfl
    refine ⟨code₁, code₂, split, fun ch hch => hspace ch ?_, ?_⟩
    · have hz : Consumes ⟨c.position.advanceOver (u ++ y), z ++ d.rest⟩ z d := by
        refine ⟨rfl, ?_⟩
        rw [hread.2, hv, ← List.append_assoc, Position.advanceOver_append]
      exact hv ▸ List.mem_append_right y (behind.mem_of_mem hz hch)
    · have := hbefore.trans hline
      rwa [List.append_nil, ← Position.advanceOver_append, ← hu] at this

theorem matchingClose_ok {c : Cursor} {close : c.Later} (h : c.matchingClose set = .ok close) :
    closeFrom set 1 c.advance = .ok close.cursor := by
  obtain ⟨p, text⟩ := c
  unfold matchingClose at h
  split at h
  · cases h
  · next ch rest hrest =>
    cases hrest
    simp only at h
    split at h
    · next d hd =>
      cases h
      exact hd
    · cases h

/-- The text of an embedded block is its body without the white space at its end. If
the block is not one of the template language, the text is read to its end by the
guard set of the block, and its braces match. -/
theorem blockText_of_matchingClose {context : Context} {c body : Cursor} {close : c.Later}
    (h : c.matchingClose context.guardSet = .ok close) (hbody : body = c.advance.skipBlank) :
    ∃ text space, trimEnd (body.textTo close.cursor) = text ∧
      body.Consumes (text ++ space) close.cursor ∧ close.cursor.rest ≠ [] ∧
      (¬ context.isTemplate → ∃ code, BracesMatch code ∧
        Passes context.guardSet ⟨body.position, text⟩ code
          ⟨body.position.advanceOver text, []⟩) := by
  subst hbody
  obtain ⟨code, hread, hmatch, hclose⟩ := exists_body context.quotes_subset (matchingClose_ok h)
  obtain ⟨whole, hwhole⟩ := hread.reaches
  obtain ⟨space, hspace, hwhite⟩ := exists_append_trimEnd whole
  rw [hwhole.textTo_eq]
  refine ⟨trimEnd whole, space, rfl, hspace ▸ hwhole, hclose, fun hcontext => ?_⟩
  obtain ⟨code₁, code₂, rfl, hcode, htrimmed⟩ := hread.trimmed context.quotes_subset
    (Context.generatorComments_of_not_isTemplate hcontext) (hspace ▸ hwhole) hwhite
  refine ⟨code₁, ⟨?_, ?_⟩, htrimmed⟩
  · intro p hp
    exact hmatch.sane p (hp.trans (List.prefix_append code₁ code₂))
  · have := hmatch.settled
    rwa [braceDepth_append, braceDepth_of_isUnicodeSpace hcode, Int.add_zero] at this

end Cursor

end Polyglot
