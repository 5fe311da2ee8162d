-- SUMMARY: The structural pass only adds fragments, under scopes in use or under fresh ones.
import Polyglot.Proofs.Step

/-!
# Growth

Whatever the structural pass does from some state on, it leaves what was emitted and
adds to it. A scope that is no longer in use, and is not fresh, never comes back
(`Outline.Grows`). So the fragments of a scope are settled once it is left behind.
-/

namespace Polyglot

/-- The scope of a frame is that of an open entry, or that of the document. -/
theorem Stack.scope_frame (s : Stack) :
    s.frame.scope = Scope.root ∨ ∃ e ∈ s.entries, e.scope = s.frame.scope := by
  obtain ⟨entries, lastScope⟩ := s
  cases entries with
  | nil => exact .inl rfl
  | cons e below => exact .inr ⟨e, List.mem_cons_self, rfl⟩

namespace Outline

variable {options : Options} {o o' o'' : Outline} {c : Cursor}

/-! ## Scopes in use -/

/-- The scope is in use: it is that of the document, of the run or of an open context. -/
def Live (o : Outline) (k : Scope) : Prop :=
  k = Scope.root ∨ o.run.scope = k ∨ ∃ e ∈ o.stack.entries, e.scope = k

/-- The scope is in use, or it may be given out up to a bound. -/
def Offers (o : Outline) (bound k : Scope) : Prop :=
  o.Live k ∨ o.stack.lastScope < k ∧ k ≤ bound

theorem Offers.mono {m n k : Scope} (h : o.Offers m k) (hmn : m ≤ n) : o.Offers n k :=
  h.imp_right fun hfresh => ⟨hfresh.1, Nat.le_trans hfresh.2 hmn⟩

theorem offers_frame {bound : Scope} {stack : Stack}
    (h : ∀ e ∈ stack.entries, o.Offers bound e.scope) : o.Offers bound stack.frame.scope := by
  obtain hroot | ⟨e, he, hscope⟩ := stack.scope_frame
  · exact .inl (.inl hroot)
  · rw [← hscope]
    exact h e he

/-! ## Growth -/

/-- The second state comes after the first: more was emitted, and what is in use now was in
use before or is fresh. -/
structure Grows (o o' : Outline) : Prop where
  scope : o.stack.lastScope ≤ o'.stack.lastScope
  live : ∀ k, o'.Live k → o.Offers o'.stack.lastScope k
  emitted : ∃ fs, o'.emitted = fs ++ o.emitted ∧
    ∀ f ∈ fs, o.Offers o'.stack.lastScope f.scope

theorem Grows.of_eq (hstack : o'.stack = o.stack) (hrun : o'.run = o.run)
    (hemitted : o'.emitted = o.emitted) : o.Grows o' := by
  refine ⟨Nat.le_of_eq (by rw [hstack]), fun k hk => ?_, [], hemitted, by simp⟩
  unfold Live at hk
  rw [hstack, hrun] at hk
  exact .inl hk

theorem Grows.refl (o : Outline) : o.Grows o := .of_eq rfl rfl rfl

theorem Grows.trans (h : o.Grows o') (k : o'.Grows o'') : o.Grows o'' := by
  have hoffers : ∀ n, o'.Offers o''.stack.lastScope n → o.Offers o''.stack.lastScope n := by
    rintro n (hlive | ⟨hfresh, hbound⟩)
    · exact (h.live n hlive).mono k.scope
    · exact .inr ⟨Nat.lt_of_le_of_lt h.scope hfresh, hbound⟩
  obtain ⟨fs, hfs, hin⟩ := h.emitted
  obtain ⟨gs, hgs, hin'⟩ := k.emitted
  refine ⟨Nat.le_trans h.scope k.scope, fun n hn => hoffers n (k.live n hn), gs ++ fs, ?_, ?_⟩
  · rw [hgs, hfs, List.append_assoc]
  · intro f hf
    rcases List.mem_append.1 hf with hf | hf
    · exact hoffers _ (hin' f hf)
    · exact (hin f hf).mono k.scope

/-- What is emitted is added, under the scope of its frame. -/
theorem emit_adds (o : Outline) (frame : Frame) (degraded : Bool) (c d : Cursor) :
    ∃ fs, (o.emit frame degraded c d).emitted = fs ++ o.emitted ∧
      ∀ f ∈ fs, f.scope = frame.scope := by
  unfold emit
  split
  · exact ⟨[], rfl, by simp⟩
  · exact ⟨[_], rfl, by simp⟩

theorem emitBody_adds (options : Options) (o : Outline) (frame : Frame) (body : Cursor)
    (text : List Char) : ∃ fs, (emitBody options o frame body text).emitted = fs ++ o.emitted ∧
      ∀ f ∈ fs, f.scope = frame.scope := by
  unfold emitBody
  simp only
  generalize Cursor.stretches _ _ = stretches
  induction stretches generalizing o with
  | nil => exact ⟨[], rfl, by simp⟩
  | cons stretch stretches ih =>
    obtain ⟨c, d⟩ := stretch
    obtain ⟨fs, hfs, hin⟩ := o.emit_adds frame false c d
    obtain ⟨gs, hgs, hin'⟩ := ih (o.emit frame false c d)
    refine ⟨gs ++ fs, ?_, fun f hf => ?_⟩
    · rw [List.foldl_cons, hgs, hfs, List.append_assoc]
    · exact (List.mem_append.1 hf).elim (hin' f) (hin f)

/-! ## Changes of context -/

theorem grows_changeStack (o : Outline) (c : Cursor) {stack : Stack}
    (hscope : o.stack.lastScope ≤ stack.lastScope)
    (hentries : ∀ e ∈ stack.entries, o.Offers stack.lastScope e.scope) :
    o.Grows (o.changeStack c stack) := by
  by_cases hcontext : stack.current = o.run.context
  · rw [changeStack_of_eq o c hcontext]
    refine ⟨hscope, ?_, [], rfl, by simp⟩
    rintro k (hroot | hrun | ⟨e, he, rfl⟩)
    · exact .inl (.inl hroot)
    · exact .inl (.inr (.inl hrun))
    · exact hentries e he
  · rw [changeStack_of_ne o c hcontext]
    obtain ⟨fs, hfs, hin⟩ := o.emit_adds o.run false o.mark c
    refine ⟨hscope, ?_, fs, hfs, fun f hf => .inl (.inr (.inl (hin f hf).symm))⟩
    rintro k (hroot | rfl | ⟨e, he, rfl⟩)
    · exact .inl (.inl hroot)
    · exact offers_frame hentries
    · exact hentries e he

theorem offers_of_mem {bound : Scope} {e : Entry} (he : e ∈ o.stack.entries) :
    o.Offers bound e.scope := .inl (.inr (.inr ⟨e, he, rfl⟩))

/-- To close contexts uses no new scope. -/
theorem grows_close (o : Outline) (c : Cursor) {stack : Stack}
    (hsuffix : stack.entries <:+ o.stack.entries ∧ stack.lastScope = o.stack.lastScope) :
    o.Grows (o.changeStack c stack) :=
  o.grows_changeStack c (Nat.le_of_eq hsuffix.2.symm)
    fun _ he => offers_of_mem (hsuffix.1.subset he)

/-- To enter a context uses a fresh scope. -/
theorem grows_enter (o : Outline) (c : Cursor) (context : Context) (kind : EntryKind)
    (pos : Position) : o.Grows (o.changeStack c (o.stack.enter context kind pos)) := by
  refine o.grows_changeStack c (Nat.le_succ _) fun e he => ?_
  rcases List.mem_cons.1 he with rfl | he
  · exact .inr ⟨Nat.lt_succ_self _, Nat.le_refl _⟩
  · exact offers_of_mem he

theorem grows_openHeaderBody {stack : Stack} {pos : Position}
    (hopen : o.stack.openHeaderBody pos = some stack) : o.Grows { o with stack := stack } := by
  obtain ⟨e, below, lastScope, hbefore, rfl⟩ := Stack.openHeaderBody_some hopen
  refine ⟨by simp [hbefore], ?_, [], rfl, by simp⟩
  rintro k (hroot | hrun | ⟨x, hx, rfl⟩)
  · exact .inl (.inl hroot)
  · exact .inl (.inr (.inl hrun))
  · rcases List.mem_cons.1 hx with rfl | hx
    · exact offers_of_mem (e := e) (by simp [hbefore])
    · exact offers_of_mem (by simp [hbefore, hx])

theorem grows_beforeCode (o : Outline) (isBrace : Bool) (c : Cursor) :
    o.Grows (o.beforeCode isBrace c) := by
  obtain ⟨-, hbefore⟩ | ⟨-, hbefore⟩ := o.beforeCode_cases isBrace c
  · rw [hbefore]
    exact (o.grows_close c o.stack.endHeader_suffix).trans (.of_eq rfl rfl rfl)
  · rw [hbefore]
    exact .of_eq rfl rfl rfl

/-! ## Steps -/

/-- More was emitted, under scopes that were in use or under fresh ones. -/
def Adds (o o' : Outline) : Prop :=
  ∃ fs, o'.emitted = fs ++ o.emitted ∧ ∀ f ∈ fs, o.Live f.scope ∨ o.stack.lastScope < f.scope

theorem Grows.trans_adds (h : o.Grows o') (k : o'.Adds o'') : o.Adds o'' := by
  obtain ⟨fs, hfs, hin⟩ := h.emitted
  obtain ⟨gs, hgs, hin'⟩ := k
  refine ⟨gs ++ fs, ?_, fun f hf => ?_⟩
  · rw [hgs, hfs, List.append_assoc]
  · rcases List.mem_append.1 hf with hf | hf
    · rcases hin' f hf with hlive | hfresh
      · exact (h.live _ hlive).imp_right And.left
      · exact .inr (Nat.lt_of_le_of_lt h.scope hfresh)
    · exact (hin f hf).imp_right And.left

/-- How a step goes on, or ends the pass, behind a state. -/
def Flow.After (o : Outline) (flow : Flow c) : Prop :=
  flow.Meets (fun o' _ => o.Grows o') fun o' => o.Adds o'

theorem Grows.flow (h : o.Grows o') {flow : Flow c} (k : flow.After o') : flow.After o := by
  cases flow with
  | onward o₁ next => exact h.trans k
  | stop o₁ => exact h.trans_adds k

/-- A block uses a fresh scope, and leaves it. -/
theorem EmbedsBy.after {context : Context} {found : Except Unbalanced c.Later} {flow : Flow c}
    (h : EmbedsBy options o context c found flow) : flow.After o := by
  have hstack : ∀ k, (⟨o.stack.entries, o.stack.lastScope + 1⟩ : Stack).frame.scope = k →
      o.Offers (o.stack.lastScope + 1) k := by
    rintro k rfl
    exact offers_frame fun e he => offers_of_mem he
  cases h with
  | @unclosed unbalanced unmatched =>
    obtain ⟨log, hissue⟩ := o.elim_guardIssue unbalanced.issue
    rw [hissue]
    obtain ⟨fs, hfs, hin⟩ := ({ o with log := log } : Outline).emit_adds o.run false o.mark
      c.advance.skipBlank
    obtain ⟨gs, hgs, hin'⟩ := ((({ o with log := log } : Outline).emitRun
      c.advance.skipBlank).fault (.unclosedBlock context unbalanced.depth) c).emit_adds
        { (o.stack.enter context .brace c.position).frame with context := .rawHtml } true
        c.advance.skipBlank c.advance.skipBlank.toEnd
    refine ⟨gs ++ fs, ?_, fun f hf => ?_⟩
    · rw [hgs, List.append_assoc]
      exact congrArg (gs ++ ·) hfs
    · rcases List.mem_append.1 hf with hf | hf
      · exact .inr (Nat.lt_of_lt_of_eq (Nat.lt_succ_self _) (hin' f hf).symm)
      · exact .inl (.inr (.inl (hin f hf).symm))
  | blank closed blank =>
    refine ⟨Nat.le_succ _, ?_, [], rfl, by simp⟩
    rintro k (hroot | hrun | ⟨e, he, rfl⟩)
    · exact .inl (.inl hroot)
    · exact .inl (.inr (.inl hrun))
    · exact offers_of_mem he
  | @body close text closed trimmed nonempty =>
    obtain ⟨fs, hfs, hin⟩ := o.emit_adds o.run false o.mark c.advance.skipBlank
    obtain ⟨gs, hgs, hin'⟩ := emitBody_adds options (o.emitRun c.advance.skipBlank)
      (o.stack.enter context .brace c.position).frame c.advance.skipBlank text
    refine ⟨Nat.le_succ _, ?_, gs ++ fs, ?_, fun f hf => ?_⟩
    · rintro k (hroot | hrun | ⟨e, he, rfl⟩)
      · exact .inl (.inl hroot)
      · exact hstack k hrun
      · exact offers_of_mem he
    · rw [hgs, List.append_assoc]
      exact congrArg (gs ++ ·) hfs
    · rcases List.mem_append.1 hf with hf | hf
      · rw [hin' f hf]
        exact .inr ⟨Nat.lt_succ_self _, Nat.le_refl _⟩
      · exact .inl (.inr (.inl (hin f hf).symm))

theorem grows_openOrigin (o : Outline) (c brace : Cursor) : o.Grows (o.openOrigin c brace) := by
  have hother : o.Grows { o with head := .other } := .of_eq rfl rfl rfl
  have hentered := hother.trans
    (({ o with head := .other } : Outline).grows_enter c .originBody .header c.position)
  unfold openOrigin
  simp only
  refine hentered.trans ?_
  cases hopen : (({ o with head := .other } : Outline).changeStack c
      (o.stack.enter .originBody .header c.position)).stack.openHeaderBody brace.position with
  | none => exact .of_eq rfl rfl rfl
  | some stack => exact grows_openHeaderBody hopen

theorem Acts.after {signs : List Sign} {flow : Flow c} (h : Acts options o c signs flow) :
    flow.After o := by
  cases h with
  | pass next begins => exact .of_eq rfl rfl rfl
  | openBody after brace opened => exact (grows_openHeaderBody opened).trans (.of_eq rfl rfl rfl)
  | openElement after brace noHeader kind =>
    exact (o.grows_enter after.cursor _ .brace c.position).trans (.of_eq rfl rfl rfl)
  | closeBrace after brace =>
    have hclosed := o.grows_close after.cursor o.stack.closeBrace_suffix
    simp only [Outline.closeBrace]
    split <;> exact hclosed.trans (.of_eq rfl rfl rfl)
  | semicolon after =>
    exact (o.grows_close after.cursor o.stack.endHeader_suffix).trans (.of_eq rfl rfl rfl)
  | header next start declared =>
    have hother : o.Grows { o with head := .other } := .of_eq rfl rfl rfl
    exact hother.trans
      (({ o with head := .other } : Outline).grows_enter c _ .header c.position)
  | block after keyword brace embeds => exact EmbedsBy.after embeds
  | originStop brace start isRaw isBrace embeds =>
    exact (o.grows_openOrigin c brace.cursor).trans_adds (EmbedsBy.after embeds)
  | origin brace start isRaw isBrace embeds =>
    have hread := (o.grows_openOrigin c brace.cursor).trans (EmbedsBy.after embeds)
    exact hread.trans (grows_close _ _ (Stack.exit_suffix _ _))

/-- What a step does comes after what was done. -/
theorem Steps.after {signs : List Sign} {flow : Flow c} (h : Steps options o c signs flow) :
    flow.After o := by
  cases h with
  | finish atEnd =>
    obtain ⟨fs, hfs, hin⟩ := o.emit_adds o.run false o.mark c
    have hrun : o.Adds (o.emitRun c) :=
      ⟨fs, hfs, fun f hf => .inl (.inr (.inl (hin f hf).symm))⟩
    simp only [Outline.finish]
    split <;> exact hrun
  | gap next => exact .of_eq rfl rfl rfl
  | openComment atEnd comment => exact .of_eq rfl rfl rfl
  | openString atEnd string => exact (o.grows_beforeCode false c).trans (.of_eq rfl rfl rfl)
  | code acts => exact (o.grows_beforeCode _ c).flow acts.after

/-- All that the rest of the walk does comes after what was done. -/
theorem adds_walk (options : Options) (o : Outline) (c : Cursor) :
    o.Adds (walk options o c) := by
  fun_induction walk options o c with
  | case1 o c o' next hstep ih =>
    have hafter := (steps options o c).after
    rw [hstep] at hafter
    exact hafter.trans_adds ih
  | case2 o c o' hstep =>
    have hafter := (steps options o c).after
    rw [hstep] at hafter
    exact hafter

/-! ## Bounds -/

/-- No scope above the last one was given out. -/
structure Bounded (o : Outline) : Prop where
  live : ∀ k, o.Live k → k ≤ o.stack.lastScope
  emitted : ∀ f ∈ o.emitted, f.scope ≤ o.stack.lastScope

theorem Grows.bounded (h : o.Grows o') (hb : o.Bounded) : o'.Bounded := by
  have hoffers : ∀ k, o.Offers o'.stack.lastScope k → k ≤ o'.stack.lastScope := by
    rintro k (hlive | hfresh)
    · exact Nat.le_trans (hb.live k hlive) h.scope
    · exact hfresh.2
  refine ⟨fun k hk => hoffers k (h.live k hk), ?_⟩
  obtain ⟨fs, hfs, hin⟩ := h.emitted
  rw [hfs]
  intro f hf
  rcases List.mem_append.1 hf with hf | hf
  · exact hoffers _ (hin f hf)
  · exact Nat.le_trans (hb.emitted f hf) h.scope

theorem bounded_initial (c : Cursor) (log : Log) : (initial c log).Bounded := by
  refine ⟨?_, fun f hf => by cases hf⟩
  rintro k (hroot | hrun | ⟨e, he, -⟩)
  · exact Nat.le_of_eq hroot
  · exact Nat.le_of_eq hrun.symm
  · cases he

end Outline

end Polyglot
