-- SUMMARY: What the operations on the context stack remove, and how scopes are given out.
import Polyglot.Proofs.Operation

/-!
# The discipline of the context stack

Whatever is asked of a stack that begins empty, its scopes grow from the bottom to the
top, and no scope is given out twice. This holds after a recovery too, where one call
removes several entries: an operation puts one entry on top, or takes some off the top,
or opens the body of the header on top (`Stack.Changes`), and touches nothing below.
Operations fail in one case only, where more contexts are opened than 32 bits can number
(`Stack.Outcome`).

What a close removes is told by the innermost entry of a kind (`Stack.Innermost`). For
`exit` this is the innermost entry with a context, for `closeBrace` the innermost brace.
-/

namespace Polyglot

namespace Stack

variable {s t u : Stack}

/-! ## The innermost entry of a kind -/

/-- `e` is the innermost of some entries that satisfies `p`: none of those above it does. -/
structure Innermost (p : Entry → Prop) (entries above : List Entry) (e : Entry)
    (below : List Entry) : Prop where
  split : entries = above ++ e :: below
  found : p e
  above : ∀ x ∈ above, ¬ p x

section Seek

variable {p : Entry → Prop} {entries above below : List Entry} {e : Entry}

/-- Below an entry that does not satisfy `p`, the innermost one is still the same. -/
theorem Innermost.tail {x : Entry} (h : Innermost p entries (x :: above) e below) :
    Innermost p (above ++ e :: below) above e below :=
  ⟨rfl, h.found, fun y hy => h.above y (List.mem_cons_of_mem x hy)⟩

variable [DecidablePred p]

theorem Innermost.seek_eq (h : Innermost p entries above e below) :
    seek (fun x => p x) entries = some (e, below) := by
  obtain ⟨rfl, hfound, habove⟩ := h
  induction above with
  | nil => simp [seek, hfound]
  | cons x above ih =>
    obtain ⟨hx, hmore⟩ := List.forall_mem_cons.1 habove
    simpa [seek, hx] using ih hmore

theorem seek_eq_none (h : ∀ x ∈ entries, ¬ p x) : seek (fun x => p x) entries = none := by
  induction entries with
  | nil => rfl
  | cons x below ih =>
    obtain ⟨hx, hmore⟩ := List.forall_mem_cons.1 h
    simpa [seek, hx] using ih hmore

end Seek

/-! ## Closing -/

/-- What a close answers if `above` stands above the entry that it removes last: this entry,
or where it is not on top, an error that names the entry on top. -/
def answer : List Entry → Entry → Except StackError Entry
  | [], e => .ok e
  | x :: _, e => .error (.mismatch e.context x.context x.openedAt)

/-- `close` is what it gives to close the innermost entry of `s` that satisfies `p`. Where
entries are open and none of them does, `failed` tells by the one on top what is answered
and what is left. -/
structure ClosesInnermost (p : Entry → Prop) (failed : Entry → StackError × Stack) (s : Stack)
    (close : Except StackError Entry × Stack) : Prop where
  empty : s.entries = [] → close = (.error .empty, s)
  ok : ∀ e, close.1 = .ok e ↔ s.top = some e ∧ p e
  found : ∀ {above below : List Entry} {e : Entry}, Innermost p s.entries above e below →
    close = (answer above e, ⟨below, s.lastScope⟩)
  unfound : ∀ x, s.top = some x → (∀ e ∈ s.entries, ¬ p e) →
    close = (.error (failed x).1, (failed x).2)

/-- An exit removes what is above the innermost entry with the context, and this entry. -/
theorem closesInnermost_exit (s : Stack) (expected : Context) :
    ClosesInnermost (·.context = expected)
      (fun x => (.mismatch expected x.context x.openedAt, s)) s (s.exit expected) := by
  obtain ⟨entries, lastScope⟩ := s
  refine ⟨?empty, ?ok, ?found, ?unfound⟩
  case empty =>
    rintro rfl
    rfl
  case ok =>
    intro e
    cases entries with
    | nil => simp [exit, top]
    | cons x below =>
      by_cases hx : x.context = expected
      · simp only [exit, hx, if_pos, top, List.head?_cons, Option.some.injEq, Except.ok.injEq]
        exact ⟨fun h => ⟨h, h ▸ hx⟩, And.left⟩
      · simp only [exit, hx, if_false, top, List.head?_cons, Option.some.injEq, reduceCtorEq,
          false_iff, not_and]
        rintro rfl
        exact hx
  case found =>
    intro above below e h
    cases above with
    | nil =>
      obtain rfl : entries = e :: below := h.split
      simp [exit, h.found, answer]
    | cons x above =>
      have hseek := h.tail.seek_eq
      have hx : ¬ x.context = expected := h.above x List.mem_cons_self
      obtain rfl : entries = x :: (above ++ e :: below) := h.split
      simp only [exit, hx, if_false, hseek, answer, h.found, Option.map_some, Option.getD_some]
  case unfound =>
    intro x hx hnone
    cases entries with
    | nil => cases hx
    | cons y below =>
      obtain rfl : y = x := Option.some.inj hx
      obtain ⟨hy, hbelow⟩ := List.forall_mem_cons.1 hnone
      simp only [exit, hy, if_false, seek_eq_none hbelow, Option.map_none, Option.getD_none]

/-- A closing brace removes the innermost brace and the headers above it; without a brace it
removes all there is. -/
theorem closesInnermost_closeBrace (s : Stack) :
    ClosesInnermost (·.kind = .brace) (fun _ => (.empty, ⟨[], s.lastScope⟩)) s s.closeBrace := by
  obtain ⟨entries, lastScope⟩ := s
  refine ⟨?empty, ?ok, ?found, ?unfound⟩
  case empty =>
    rintro rfl
    rfl
  case ok =>
    intro e
    cases entries with
    | nil => simp [closeBrace, top]
    | cons x below =>
      by_cases hx : x.kind = .brace
      · simp only [closeBrace, hx, if_pos, top, List.head?_cons, Option.some.injEq,
          Except.ok.injEq]
        exact ⟨fun h => ⟨h, h ▸ hx⟩, And.left⟩
      · have hopen : (⟨x :: below, lastScope⟩ : Stack).closeBrace.1 ≠ .ok e := by
          simp only [closeBrace, hx, if_false]
          split <;> simp
        simp only [hopen, top, List.head?_cons, Option.some.injEq, false_iff, not_and]
        rintro rfl
        exact hx
  case found =>
    intro above below e h
    cases above with
    | nil =>
      obtain rfl : entries = e :: below := h.split
      simp [closeBrace, h.found, answer]
    | cons x above =>
      have hseek := h.tail.seek_eq
      have hx : ¬ x.kind = .brace := h.above x List.mem_cons_self
      obtain rfl : entries = x :: (above ++ e :: below) := h.split
      simp only [closeBrace, hx, if_false, hseek, answer]
  case unfound =>
    intro x hx hnone
    cases entries with
    | nil => cases hx
    | cons y below =>
      obtain ⟨hy, hbelow⟩ := List.forall_mem_cons.1 hnone
      simp only [closeBrace, hy, if_false, seek_eq_none hbelow]

/-! ## Operations -/

/-- What can be asked of a stack. -/
inductive Operation where
  | enter (context : Context) (kind : EntryKind) (pos : Position)
  | exit (expected : Context)
  | closeBrace
  | endHeader
  | openHeaderBody (pos : Position)
  deriving DecidableEq

namespace Operation

/-- The stack that an operation leaves. There is none if a context should be opened and no
scope is left for it. -/
def perform? (s : Stack) : Operation → Option Stack
  | enter context kind pos => s.enter? context kind pos
  | exit expected => some (s.exit expected).2
  | closeBrace => some s.closeBrace.2
  | endHeader => some s.endHeader.2
  | openHeaderBody pos => some ((s.openHeaderBody pos).getD s)

/-- The operation opens a context. -/
def isEnter : Operation → Bool
  | enter .. => true
  | _ => false

end Operation

/-- The stack after some operations, from an empty one on, if none of them fails. -/
def after? (ops : List Operation) : Option Stack := ops.foldlM Operation.perform? empty

/-- How many of some operations open a context. -/
def enters (ops : List Operation) : Nat := ops.countP Operation.isEnter

theorem enters_cons (op : Operation) (ops : List Operation) :
    enters (op :: ops) = (if op.isEnter then 1 else 0) + enters ops :=
  List.countP_cons.trans (Nat.add_comm _ _)

/-- Operations that succeed have succeeded up to any of them. -/
theorem after?_append {ops more : List Operation} (h : after? (ops ++ more) = some s) :
    ∃ t, after? ops = some t ∧ more.foldlM Operation.perform? t = some s := by
  rw [after?, List.foldlM_append] at h
  exact Option.bind_eq_some_iff.1 h

theorem Operation.perform?_eq_none_iff {op : Operation} :
    op.perform? s = none ↔ op.isEnter ∧ UInt32.size ≤ s.lastScope + 1 := by
  cases op with
  | enter context kind pos => simp [perform?, isEnter, enter?_eq_none_iff]
  | exit | closeBrace | endHeader | openHeaderBody => simp [perform?, isEnter]

/-- All that an operation can do to a stack. -/
inductive Changes (s : Stack) : Operation → Stack → Prop where
  /-- One entry is put on top. -/
  | pushed (context : Context) (kind : EntryKind) (pos : Position) :
      Changes s (.enter context kind pos)
        ⟨⟨context, kind, s.lastScope + 1, pos⟩ :: s.entries, s.lastScope + 1⟩
  /-- Some entries are taken off the top, or none. -/
  | popped {op : Operation} {removed kept : List Entry}
      (close : op = .closeBrace ∨ ∃ expected, op = .exit expected)
      (split : s.entries = removed ++ kept) : Changes s op ⟨kept, s.lastScope⟩
  /-- The header on top is taken off. -/
  | ended {e : Entry} {below : List Entry} (split : s.entries = e :: below)
      (header : e.kind = .header) : Changes s .endHeader ⟨below, s.lastScope⟩
  /-- The header on top becomes a brace, opened here, and is otherwise the same. -/
  | opened {e : Entry} {below : List Entry} (pos : Position) (split : s.entries = e :: below)
      (header : e.kind = .header) : Changes s (.openHeaderBody pos)
        ⟨{ e with kind := .brace, openedAt := pos } :: below, s.lastScope⟩
  /-- There is no header on top to be ended or opened. -/
  | refused {op : Operation} (asks : op = .endHeader ∨ ∃ pos, op = .openHeaderBody pos)
      (noHeader : ∀ e, s.top = some e → e.kind ≠ .header) : Changes s op s

/-- What is left of the entries was below all that was removed. -/
theorem Changes.of_suffix {op : Operation}
    (close : op = .closeBrace ∨ ∃ expected, op = .exit expected)
    (h : t.entries <:+ s.entries ∧ t.lastScope = s.lastScope) : Changes s op t := by
  obtain ⟨kept, lastScope⟩ := t
  obtain ⟨⟨removed, hsplit⟩, rfl⟩ := h
  exact .popped close hsplit.symm

/-- The list of what an operation can do is complete. -/
theorem changes_of_perform? {op : Operation} (h : op.perform? s = some t) : Changes s op t := by
  -- the two operations on headers look at the entry on top
  obtain ⟨entries, lastScope⟩ := s
  cases op with
  | enter context kind pos =>
    obtain ⟨rfl, -⟩ := enter?_eq_some_iff.1 h
    exact .pushed context kind pos
  | exit expected =>
    obtain rfl := Option.some.inj h
    exact .of_suffix (.inr ⟨expected, rfl⟩) (exit_suffix _ expected)
  | closeBrace =>
    obtain rfl := Option.some.inj h
    exact .of_suffix (.inl rfl) (closeBrace_suffix _)
  | endHeader =>
    obtain rfl := Option.some.inj h
    cases entries with
    | nil => exact .refused (.inl rfl) fun e he => by cases he
    | cons e below =>
      by_cases header : e.kind = .header
      · simp only [Stack.endHeader, header, if_pos]
        exact .ended rfl header
      · simp only [Stack.endHeader, header, if_false]
        exact .refused (.inl rfl) fun x hx => Option.some.inj hx ▸ header
  | openHeaderBody pos =>
    obtain rfl := Option.some.inj h
    cases entries with
    | nil => exact .refused (.inr ⟨pos, rfl⟩) fun e he => by cases he
    | cons e below =>
      by_cases header : e.kind = .header
      · simp only [Stack.openHeaderBody, header, if_pos, Option.getD_some]
        exact .opened pos rfl header
      · simp only [Stack.openHeaderBody, header, if_false, Option.getD_none]
        exact .refused (.inr ⟨pos, rfl⟩) fun x hx => Option.some.inj hx ▸ header

/-- What holds of no operations, and of some more if it holds behind what the first one does,
holds of all operations that succeed. -/
theorem foldlM_perform?_induction {R : Stack → List Operation → Prop} {ops : List Operation}
    (h : ops.foldlM Operation.perform? s = some t) (done : R t [])
    (step : ∀ {s u : Stack} {op : Operation} {ops : List Operation},
      Changes s op u → R u ops → R s (op :: ops)) : R s ops := by
  induction ops generalizing s with
  | nil => exact Option.some.inj h ▸ done
  | cons op ops ih =>
    rw [List.foldlM_cons] at h
    obtain ⟨u, hop, hops⟩ := Option.bind_eq_some_iff.1 h
    exact step (changes_of_perform? hop) (ih hops)

/-! ## Scopes -/

/-- The scopes of a stack, the innermost one first, fall down to the bottom, and all of them
were given out. -/
structure Ordered (s : Stack) : Prop where
  falling : (s.entries.map Entry.scope).Pairwise (· > ·)
  issued : ∀ e ∈ s.entries, 0 < e.scope ∧ e.scope ≤ s.lastScope

/-- What an operation does keeps the scopes in order. -/
theorem Changes.ordered {op : Operation} (h : Changes s op t) (hs : s.Ordered) : t.Ordered := by
  obtain ⟨hfalling, hissued⟩ := hs
  cases h with
  | pushed context kind pos =>
    refine ⟨?_, ?_⟩
    · rw [List.map_cons, List.pairwise_cons]
      refine ⟨fun scope hscope => ?_, hfalling⟩
      obtain ⟨e, he, rfl⟩ := List.mem_map.1 hscope
      exact Nat.lt_succ_of_le (hissued e he).2
    · intro e he
      rcases List.mem_cons.1 he with rfl | he
      · exact ⟨Nat.succ_pos _, Nat.le_refl _⟩
      · exact ⟨(hissued e he).1, Nat.le_succ_of_le (hissued e he).2⟩
  | popped close split =>
    rw [split] at hfalling hissued
    rw [List.map_append] at hfalling
    exact ⟨hfalling.sublist (List.sublist_append_right _ _),
      fun e he => hissued e (List.mem_append_right _ he)⟩
  | ended split header =>
    rw [split] at hfalling hissued
    exact ⟨(List.pairwise_cons.1 hfalling).2, (List.forall_mem_cons.1 hissued).2⟩
  | opened pos split header =>
    rw [split] at hfalling hissued
    obtain ⟨htop, hbelow⟩ := List.forall_mem_cons.1 hissued
    exact ⟨hfalling, List.forall_mem_cons.2 ⟨htop, hbelow⟩⟩
  | refused => exact ⟨hfalling, hissued⟩

theorem Ordered.foldlM {ops : List Operation} (hs : s.Ordered)
    (h : ops.foldlM Operation.perform? s = some t) : t.Ordered := by
  refine foldlM_perform?_induction (R := fun s _ => s.Ordered → t.Ordered) h id ?_ hs
  exact fun hop hmore hs => hmore (hop.ordered hs)

theorem ordered_empty : empty.Ordered := ⟨.nil, fun e he => by cases he⟩

/-- Only what opens a context gives out a scope. -/
theorem Changes.lastScope_eq {op : Operation} (h : Changes s op t) :
    t.lastScope = s.lastScope + if op.isEnter then 1 else 0 := by
  cases h with
  | pushed | ended | opened => rfl
  | popped close => obtain rfl | ⟨_, rfl⟩ := close <;> rfl
  | refused asks => obtain rfl | ⟨_, rfl⟩ := asks <;> rfl

theorem lastScope_foldlM {ops : List Operation} (h : ops.foldlM Operation.perform? s = some t) :
    t.lastScope = s.lastScope + enters ops := by
  refine foldlM_perform?_induction (R := fun s ops => t.lastScope = s.lastScope + enters ops) h
    rfl ?_
  intro s u op ops hop hmore
  rw [hmore, hop.lastScope_eq, enters_cons, Nat.add_assoc]

theorem lastScope_after {ops : List Operation} (h : after? ops = some s) :
    s.lastScope = enters ops :=
  (lastScope_foldlM h).trans (Nat.zero_add _)

/-! ## Room -/

/-- An operation that succeeds gives out no scope that does not fit. -/
theorem lastScope_lt_of_perform? {op : Operation} (hs : s.lastScope < UInt32.size)
    (h : op.perform? s = some t) : t.lastScope < UInt32.size := by
  rw [(changes_of_perform? h).lastScope_eq]
  split
  · next henter =>
    refine Nat.lt_of_not_le fun hfull => ?_
    have hnone := Operation.perform?_eq_none_iff.2 ⟨henter, hfull⟩
    rw [h] at hnone
    cases hnone
  · exact hs

/-- Operations succeed exactly if there is room for all scopes that they need. -/
theorem exists_foldlM_iff {ops : List Operation} (hs : s.lastScope < UInt32.size) :
    (∃ t, ops.foldlM Operation.perform? s = some t) ↔ s.lastScope + enters ops < UInt32.size := by
  induction ops generalizing s with
  | nil => exact ⟨fun _ => hs, fun _ => ⟨s, rfl⟩⟩
  | cons op ops ih =>
    cases hop : op.perform? s with
    | none =>
      obtain ⟨henter, hfull⟩ := Operation.perform?_eq_none_iff.1 hop
      have hmore : ¬ s.lastScope + enters (op :: ops) < UInt32.size := by
        rw [enters_cons, if_pos henter, ← Nat.add_assoc]
        exact Nat.not_lt_of_le (Nat.le_add_right_of_le hfull)
      simp [hop, hmore]
    | some u =>
      have hu := lastScope_lt_of_perform? hs hop
      rw [enters_cons, ← Nat.add_assoc, ← (changes_of_perform? hop).lastScope_eq, ← ih hu,
        List.foldlM_cons, hop]
      rfl

theorem exists_after_iff {ops : List Operation} :
    (∃ s, after? ops = some s) ↔ enters ops < UInt32.size := by
  rw [← Nat.zero_add (enters ops)]
  exact exists_foldlM_iff (s := empty) (by decide)

/-! ## What was removed -/

/-- Whatever `t` still has of the scopes that were given out before `s`, `s` has too, with the
same context. So what was removed before `s` never comes back. -/
structure Descends (s t : Stack) : Prop where
  lastScope_le : s.lastScope ≤ t.lastScope
  old : ∀ e ∈ t.entries, e.scope ≤ s.lastScope →
    ∃ x ∈ s.entries, x.scope = e.scope ∧ x.context = e.context

theorem Descends.refl (s : Stack) : s.Descends s := ⟨Nat.le_refl _, fun e he _ => ⟨e, he, rfl, rfl⟩⟩

theorem Descends.trans (h : s.Descends t) (k : t.Descends u) : s.Descends u := by
  refine ⟨Nat.le_trans h.lastScope_le k.lastScope_le, fun e he hold => ?_⟩
  obtain ⟨x, hx, hscope, hcontext⟩ := k.old e he (Nat.le_trans hold h.lastScope_le)
  obtain ⟨y, hy, hscope', hcontext'⟩ := h.old x hx (hscope ▸ hold)
  exact ⟨y, hy, hscope'.trans hscope, hcontext'.trans hcontext⟩

theorem Changes.descends {op : Operation} (h : Changes s op t) : s.Descends t := by
  refine ⟨h.lastScope_eq ▸ Nat.le_add_right _ _, ?_⟩
  cases h with
  | pushed context kind pos =>
    intro e he hold
    rcases List.mem_cons.1 he with rfl | he
    · exact absurd hold (Nat.not_succ_le_self _)
    · exact ⟨e, he, rfl, rfl⟩
  | popped close split =>
    exact fun e he _ => ⟨e, split ▸ List.mem_append_right _ he, rfl, rfl⟩
  | ended split header =>
    exact fun e he _ => ⟨e, split ▸ List.mem_cons_of_mem _ he, rfl, rfl⟩
  | @opened top below pos split header =>
    intro e he _
    rw [split]
    rcases List.mem_cons.1 he with rfl | he
    · exact ⟨top, List.mem_cons_self, rfl, rfl⟩
    · exact ⟨e, List.mem_cons_of_mem top he, rfl, rfl⟩
  | refused => exact fun e he _ => ⟨e, he, rfl, rfl⟩

theorem descends_foldlM {ops : List Operation} (h : ops.foldlM Operation.perform? s = some t) :
    s.Descends t :=
  foldlM_perform?_induction (R := fun s _ => s.Descends t) h (.refl t) fun hop hmore =>
    hop.descends.trans hmore

/-! ## The discipline -/

/-- What holds of the stack after some operations, and of each operation that comes next. -/
structure Disciplined (ops : List Operation) (s : Stack) : Prop where
  /-- The scopes grow from the bottom to the top. -/
  increasing : (s.entries.reverse.map Entry.scope).Pairwise (· < ·)
  bounded : ∀ e ∈ s.entries, e.scope ≤ enters ops
  /-- A context that is opened now has a scope that no stack had before. -/
  fresh : ∀ earlier, earlier <+: ops → ∃ t, after? earlier = some t ∧ ∀ e ∈ t.entries,
    ∀ context kind pos u, s.enter? context kind pos = some u →
      ∀ new, u.top = some new → e.scope < new.scope
  /-- A scope that was given out before is on the stack only if it was there ever since, with
  the same context. -/
  kept : ∀ earlier, earlier <+: ops → ∃ t, after? earlier = some t ∧
    ∀ e ∈ s.entries, e.scope ≤ enters earlier →
      ∃ x ∈ t.entries, x.scope = e.scope ∧ x.context = e.context
  /-- An operation fails only if it opens a context and all scopes were given out. -/
  fails : ∀ op : Operation, op.perform? s = none ↔ op.isEnter ∧ enters ops + 1 = UInt32.size
  changes : ∀ (op : Operation) t, op.perform? s = some t → Changes s op t
  exit : ∀ expected, ClosesInnermost (·.context = expected)
    (fun x => (.mismatch expected x.context x.openedAt, s)) s (s.exit expected)
  closeBrace : ClosesInnermost (·.kind = .brace) (fun _ => (.empty, ⟨[], s.lastScope⟩)) s
    s.closeBrace

/-- What comes of some operations on an empty stack. -/
inductive Outcome (ops : List Operation) : Option Stack → Prop where
  | stack {s : Stack} (room : enters ops < UInt32.size) (disciplined : Disciplined ops s) :
      Outcome ops (some s)
  /-- They open more contexts than there are scopes. -/
  | failed (full : UInt32.size ≤ enters ops) : Outcome ops none

theorem disciplined_of_after {ops : List Operation} {s : Stack} (h : after? ops = some s) :
    Disciplined ops s := by
  have hordered : s.Ordered := ordered_empty.foldlM h
  have hlast := lastScope_after h
  have hroom : enters ops < UInt32.size := exists_after_iff.1 ⟨s, h⟩
  -- what the operations before have left, and what it has become since
  have hearlier : ∀ earlier, earlier <+: ops →
      ∃ t, after? earlier = some t ∧ t.Ordered ∧ t.lastScope = enters earlier ∧ t.Descends s := by
    rintro earlier ⟨more, rfl⟩
    obtain ⟨t, ht, hmore⟩ := after?_append h
    exact ⟨t, ht, ordered_empty.foldlM ht, lastScope_after ht, descends_foldlM hmore⟩
  refine ⟨?increasing, ?bounded, ?fresh, ?kept, ?fails, fun _ _ => changes_of_perform?,
    closesInnermost_exit s, closesInnermost_closeBrace s⟩
  case increasing =>
    rw [List.map_reverse, List.pairwise_reverse]
    exact hordered.falling
  case bounded =>
    intro e he
    exact hlast ▸ (hordered.issued e he).2
  case fresh =>
    intro earlier hprefix
    obtain ⟨t, ht, htordered, -, hdescends⟩ := hearlier earlier hprefix
    refine ⟨t, ht, fun e he context kind pos u hu new hnew => ?_⟩
    obtain ⟨rfl, -⟩ := enter?_eq_some_iff.1 hu
    obtain rfl := Option.some.inj hnew
    exact Nat.lt_succ_of_le (Nat.le_trans (htordered.issued e he).2 hdescends.lastScope_le)
  case kept =>
    intro earlier hprefix
    obtain ⟨t, ht, -, htlast, hdescends⟩ := hearlier earlier hprefix
    exact ⟨t, ht, fun e he hold => hdescends.old e he (htlast ▸ hold)⟩
  case fails =>
    intro op
    rw [Operation.perform?_eq_none_iff, hlast]
    exact and_congr_right fun _ =>
      ⟨fun hfull => Nat.le_antisymm hroom hfull, fun hlast => Nat.le_of_eq hlast.symm⟩

/-- Operations on an empty stack fail only if they open more contexts than 32 bits can number,
and the stack that they leave otherwise keeps the discipline. -/
theorem disciplined_after (ops : List Operation) : Outcome ops (after? ops) := by
  cases h : after? ops with
  | some s => exact .stack (exists_after_iff.1 ⟨s, h⟩) (disciplined_of_after h)
  | none =>
    refine .failed (Nat.le_of_not_lt fun hroom => ?_)
    obtain ⟨s, hs⟩ := exists_after_iff.2 hroom
    rw [h] at hs
    cases hs

/-- A context that is exited below two others takes them along, and the next scope is new. -/
example : (after? [.enter .namespaceBody .brace .start, .enter .elementBody .brace .start,
    .enter .elementBody .header .start, .exit .namespaceBody,
    .enter .templateBody .header .start]).map Stack.entries =
    some [⟨.templateBody, .header, 4, .start⟩] := rfl

end Stack

end Polyglot
