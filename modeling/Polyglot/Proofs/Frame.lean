-- SUMMARY: The frames of a scan are coherent: a scope has one frame, and the depth counts the parents.
import Mathlib.Data.List.Infix
import Polyglot.Proofs.Scan
import Polyglot.Proofs.Step

/-!
# Frames

The frame of a fragment was on the context stack when its run began, and the stack
may have changed since. So the invariant of the structural pass, `Outline.Framed`, is
about all frames that were ever in use. Only to enter a context adds one, and it has
a fresh scope; all other changes of the stack go back to frames that are known.
-/

namespace Polyglot

/-! ## Frames in use -/

namespace Frame

/-- The depth counts the contexts around, and only the document itself is global. -/
structure IsPlaced (a : Frame) : Prop where
  depth : a.parents.length = a.nesting - 1
  root : a.context = .global ↔ a.scope = Scope.root
  top : a.scope = Scope.root ↔ a.nesting = 0

/-- No scope up to the bound has two frames. -/
structure Coherent (frames : List Frame) (bound : Scope) : Prop where
  placed : ∀ a ∈ frames, a.IsPlaced
  unique : ∀ a ∈ frames, ∀ b ∈ frames, a.scope = b.scope → a = b
  scope : ∀ a ∈ frames, a.scope ≤ bound

/-- A frame with a fresh scope may be added. -/
theorem Coherent.cons {frames : List Frame} {bound : Scope} (h : Coherent frames bound)
    {a : Frame} (ha : a.IsPlaced) (hfresh : a.scope = bound + 1) :
    Coherent (a :: frames) (bound + 1) where
  placed := by
    intro b hb
    rcases List.mem_cons.1 hb with rfl | hb
    · exact ha
    · exact h.placed b hb
  unique := by
    have hold : ∀ b ∈ frames, b.scope ≠ a.scope := by
      intro b hb hsame
      have hle := h.scope b hb
      rw [hsame, hfresh] at hle
      exact Nat.not_succ_le_self _ hle
    intro b hb c hc hsame
    rcases List.mem_cons.1 hb with rfl | hb'
    · rcases List.mem_cons.1 hc with rfl | hc'
      · rfl
      · exact absurd hsame.symm (hold c hc')
    · rcases List.mem_cons.1 hc with rfl | hc'
      · exact absurd hsame (hold b hb')
      · exact h.unique b hb' c hc' hsame
  scope := by
    intro b hb
    rcases List.mem_cons.1 hb with rfl | hb
    · exact Nat.le_of_eq hfresh
    · exact Nat.le_succ_of_le (h.scope b hb)

end Frame

/-- The fragment has one of the frames, unless error recovery made it. -/
structure Fragment.Fits (frames : List Frame) (f : Fragment) : Prop where
  known : f.degraded = false → f.toFrame ∈ frames
  depth : f.parents.length = f.nesting - 1

theorem Fragment.Fits.mono {frames more : List Frame} {f : Fragment} (h : f.Fits frames)
    (hsub : frames ⊆ more) : f.Fits more :=
  ⟨fun hf => hsub (h.known hf), h.depth⟩

theorem Fragment.Fits.of_kin {frames : List Frame} {f g : Fragment} (hfg : f.Kin g)
    (h : f.Fits frames) : g.Fits frames := by
  obtain ⟨hframe, hdegraded⟩ := hfg
  refine ⟨fun hg => ?_, ?_⟩
  · rw [← hframe]
    exact h.known (hdegraded.trans hg)
  · rw [← hframe]
    exact h.depth

/-! ## The frames of a stack -/

namespace Stack

variable {s t : Stack}

/-- The frames under a stack and under what is left of it when contexts are closed. -/
def frames (s : Stack) : List Frame :=
  s.entries.tails.map fun entries => (⟨entries, s.lastScope⟩ : Stack).frame

theorem frame_mem_frames (s : Stack) : s.frame ∈ s.frames :=
  List.mem_map.2 ⟨s.entries, (List.mem_tails _ _).2 List.suffix_rfl, rfl⟩

theorem frames_of_suffix (h : t.entries <:+ s.entries) : t.frames ⊆ s.frames := by
  intro a ha
  obtain ⟨entries, hentries, rfl⟩ := List.mem_map.1 ha
  have hsuffix := ((List.mem_tails _ _).1 hentries).trans h
  exact List.mem_map.2 ⟨entries, (List.mem_tails _ _).2 hsuffix, rfl⟩

theorem frames_enter (s : Stack) (context : Context) (kind : EntryKind) (pos : Position) :
    (s.enter context kind pos).frames = (s.enter context kind pos).frame :: s.frames := rfl

/-- To open the body of a declaration changes no frame. -/
theorem frames_openHeaderBody {pos : Position} (h : s.openHeaderBody pos = some t) :
    t.frames = s.frames ∧ t.lastScope = s.lastScope := by
  obtain ⟨e, below, lastScope, rfl, rfl⟩ := openHeaderBody_some h
  exact ⟨rfl, rfl⟩

theorem isPlaced_enter (s : Stack) {context : Context} (hcontext : context ≠ .global)
    (kind : EntryKind) (pos : Position) : (s.enter context kind pos).frame.IsPlaced where
  depth := by simp [frame, enter, enclosing, depth]
  root := iff_of_false hcontext (Nat.succ_ne_zero _)
  top := iff_of_false (Nat.succ_ne_zero _) (Nat.succ_ne_zero _)

end Stack

namespace Outline

variable {options : Options} {o : Outline} {c : Cursor} {pool : List Frame}

/-! ## The invariant -/

/-- The frames on the stack, that of the run and those of the fragments are in a coherent pool. -/
structure Framed (pool : List Frame) (o : Outline) : Prop where
  coherent : Frame.Coherent pool o.stack.lastScope
  stack : o.stack.frames ⊆ pool
  run : o.run ∈ pool
  emitted : ∀ f ∈ o.emitted, f.Fits pool

theorem Framed.of_eq {o' : Outline} (h : Framed pool o) (hstack : o'.stack = o.stack)
    (hrun : o'.run = o.run) (hemitted : o'.emitted = o.emitted) : Framed pool o' := by
  obtain ⟨coherent, stack, run, emitted⟩ := h
  rw [← hstack] at coherent stack
  rw [← hrun] at run
  rw [← hemitted] at emitted
  exact ⟨coherent, stack, run, emitted⟩

theorem fits_of_mem {bound : Scope} {frame : Frame} (hcoherent : Frame.Coherent pool bound)
    (hframe : frame ∈ pool) (id : FragmentId) (content : List Char) (start stop : Position) :
    (frame.fragment false id content start stop).Fits pool :=
  ⟨fun _ => hframe, (hcoherent.placed frame hframe).depth⟩

/-- A new stack is fine if its frames are in the pool. -/
theorem framed_changeStack {stack : Stack} (hcoherent : Frame.Coherent pool stack.lastScope)
    (hstack : stack.frames ⊆ pool) (hrun : o.run ∈ pool) (hemitted : ∀ f ∈ o.emitted, f.Fits pool)
    (c : Cursor) : Framed pool (o.changeStack c stack) := by
  have hfits := emitted_changeStack hemitted (fits_of_mem hcoherent hrun) c stack
  obtain ⟨hsame, -⟩ := changeStack_frame o c stack
  refine ⟨hsame.symm ▸ hcoherent, hsame.symm ▸ hstack, ?_, hfits⟩
  by_cases hcontext : stack.current = o.run.context
  · rw [changeStack_of_eq o c hcontext]
    exact hrun
  · rw [changeStack_of_ne o c hcontext]
    exact hstack stack.frame_mem_frames

/-- To close contexts uses no new frame. -/
theorem Framed.close (h : Framed pool o) (c : Cursor) {stack : Stack}
    (hsuffix : stack.entries <:+ o.stack.entries ∧ stack.lastScope = o.stack.lastScope) :
    Framed pool (o.changeStack c stack) :=
  framed_changeStack (hsuffix.2.symm ▸ h.coherent)
    (List.Subset.trans (Stack.frames_of_suffix hsuffix.1) h.stack) h.run h.emitted c

/-- To enter a context adds its frame to the pool. -/
theorem Framed.enter (h : Framed pool o) {context : Context} (hcontext : context ≠ .global)
    (kind : EntryKind) (pos : Position) :
    Frame.Coherent ((o.stack.enter context kind pos).frame :: pool) (o.stack.lastScope + 1) ∧
    (o.stack.enter context kind pos).frames ⊆ (o.stack.enter context kind pos).frame :: pool ∧
    ∀ f ∈ o.emitted, f.Fits ((o.stack.enter context kind pos).frame :: pool) := by
  refine ⟨h.coherent.cons (o.stack.isPlaced_enter hcontext kind pos) rfl, ?_,
    fun f hf => (h.emitted f hf).mono (List.subset_cons_self _ _)⟩
  rw [Stack.frames_enter]
  exact List.cons_subset_cons _ h.stack

theorem Framed.changeStack_enter (h : Framed pool o) {context : Context}
    (hcontext : context ≠ .global) (kind : EntryKind) (pos : Position) (c : Cursor) :
    ∃ pool', Framed pool' (o.changeStack c (o.stack.enter context kind pos)) := by
  obtain ⟨hcoherent, hframes, hemitted⟩ := h.enter hcontext kind pos
  exact ⟨_, framed_changeStack hcoherent hframes (List.mem_cons_of_mem _ h.run) hemitted c⟩

theorem Framed.beforeCode (h : Framed pool o) (isBrace : Bool) (c : Cursor) :
    Framed pool (o.beforeCode isBrace c) := by
  obtain ⟨-, hbefore⟩ | ⟨-, hbefore⟩ := o.beforeCode_cases isBrace c
  · rw [hbefore]
    exact (h.close c o.stack.endHeader_suffix).of_eq rfl rfl rfl
  · rw [hbefore]
    exact h.of_eq rfl rfl rfl

/-! ## Steps -/

/-- The frames of the fragments are in a coherent pool. -/
def Pooled (o : Outline) : Prop :=
  ∃ pool bound, Frame.Coherent pool bound ∧ ∀ f ∈ o.emitted, f.Fits pool

/-- How a step goes on with coherent frames. -/
def Flow.Framed (flow : Flow c) : Prop :=
  flow.Meets (fun o _ => ∃ pool, Outline.Framed pool o) Pooled

theorem Framed.embeds {context : Context} {flow : Flow c} (h : Framed pool o)
    (hcontext : context ≠ .global) (hflow : Embeds options o context c flow) : flow.Framed := by
  obtain ⟨hcoherent, hframes, hemitted⟩ := h.enter hcontext .brace c.position
  have hframe := List.mem_cons_self (a := (o.stack.enter context .brace c.position).frame)
    (l := pool)
  have hrun : o.run ∈ (o.stack.enter context .brace c.position).frame :: pool :=
    List.mem_cons_of_mem _ h.run
  have hstack : (⟨o.stack.entries, o.stack.lastScope + 1⟩ : Stack).frames ⊆
      (o.stack.enter context .brace c.position).frame :: pool :=
    List.Subset.trans h.stack (List.subset_cons_self _ _)
  cases hflow with
  | @unclosed unbalanced unmatched =>
    obtain ⟨log, hissue⟩ := o.elim_guardIssue unbalanced.issue
    rw [hissue]
    have hbefore := emitted_emit (o := { o with log := log }) hemitted
      (fits_of_mem hcoherent hrun) o.mark c.advance.skipBlank
    refine ⟨_, _, hcoherent, emitted_emit ?_ ?_ _ _⟩
    · exact hbefore
    · intro id content start stop
      exact ⟨fun h => Bool.noConfusion h, (hcoherent.placed _ hframe).depth⟩
  | blank closed => exact ⟨_, hcoherent, hstack, hrun, hemitted⟩
  | body closed trimmed nonempty =>
    refine ⟨_, hcoherent, hstack, hstack (Stack.frame_mem_frames _), ?_⟩
    exact emitted_emitBody (emitted_emit hemitted (fits_of_mem hcoherent hrun) _ _)
      (fits_of_mem hcoherent hframe) _ _

theorem ne_global_of_isRaw {context : Context} (h : context.isRaw) : context ≠ .global := by
  rintro rfl
  cases h

theorem context_ne_global (rootAsElement : Bool) (around : Context) (k : BlockKeyword) :
    k.context rootAsElement around ≠ .global := by
  cases k <;> by_cases h : BlockKeyword.isLocal rootAsElement around <;>
    simp [BlockKeyword.context, h]

theorem ofDeclaration?_ne_global {word : String} {context : Context}
    (h : Context.ofDeclaration? word = some context) : context ≠ .global := by
  rintro rfl
  unfold Context.ofDeclaration? at h
  split at h <;> cases h

/-- At the brace of an origin block, the header of the block has become its body. -/
theorem Framed.openOrigin (h : Framed pool o) (c brace : Cursor) :
    ∃ pool', Framed pool' (o.openOrigin c brace) := by
  have hother : Framed pool { o with head := .other } := h.of_eq rfl rfl rfl
  obtain ⟨pool', hentered⟩ :=
    hother.changeStack_enter (show Context.originBody ≠ .global from Context.noConfusion) .header
      c.position c
  unfold Outline.openOrigin
  simp only
  generalize ({ o with head := .other } : Outline).changeStack c _ = o' at hentered ⊢
  refine ⟨pool', ?_⟩
  cases hopen : o'.stack.openHeaderBody brace.position with
  | none => exact hentered
  | some stack =>
    obtain ⟨hframes, hscope⟩ := Stack.frames_openHeaderBody hopen
    exact ⟨hscope.symm ▸ hentered.coherent, hframes.symm ▸ hentered.stack, hentered.run,
      hentered.emitted⟩

theorem Framed.acts {signs : List Sign} {flow : Flow c} (h : Framed pool o)
    (hflow : Acts options o c signs flow) : flow.Framed := by
  cases hflow with
  | pass next begins => exact ⟨pool, h.of_eq rfl rfl rfl⟩
  | openBody after brace opened =>
    obtain ⟨hframes, hscope⟩ := Stack.frames_openHeaderBody opened
    exact ⟨pool, hscope.symm ▸ h.coherent, hframes.symm ▸ h.stack, h.run, h.emitted⟩
  | @openElement context after brace noHeader kind =>
    have hcontext : context ≠ .global := by
      rcases kind with rfl | rfl <;> exact Context.noConfusion
    obtain ⟨pool', hentered⟩ := h.changeStack_enter hcontext .brace c.position after.cursor
    exact ⟨pool', hentered.of_eq rfl rfl rfl⟩
  | closeBrace after brace =>
    have hclosed := h.close after.cursor o.stack.closeBrace_suffix
    refine ⟨pool, ?_⟩
    simp only [Outline.closeBrace]
    split
    · exact hclosed.of_eq rfl rfl rfl
    · exact hclosed.of_eq rfl rfl rfl
    · exact hclosed.of_eq rfl rfl rfl
  | semicolon after =>
    exact ⟨pool, (h.close after.cursor o.stack.endHeader_suffix).of_eq rfl rfl rfl⟩
  | header next start declared =>
    obtain ⟨word, hword⟩ := declared
    have hother : Framed pool { o with head := .other } := h.of_eq rfl rfl rfl
    exact hother.changeStack_enter (ofDeclaration?_ne_global hword) .header c.position c
  | block after keyword brace embeds => exact h.embeds (context_ne_global _ _ _) embeds
  | originStop brace start isRaw isBrace embeds =>
    obtain ⟨pool', hopened⟩ := h.openOrigin c brace.cursor
    have hstop := hopened.embeds (ne_global_of_isRaw isRaw) embeds
    exact hstop
  | origin brace start isRaw isBrace embeds =>
    obtain ⟨pool', hopened⟩ := h.openOrigin c brace.cursor
    obtain ⟨pool'', hread⟩ := hopened.embeds (ne_global_of_isRaw isRaw) embeds
    exact ⟨pool'', hread.close _ (Stack.exit_suffix _ _)⟩

/-- A step keeps the frames coherent. -/
theorem Framed.steps {signs : List Sign} {flow : Flow c} (h : Framed pool o)
    (hflow : Steps options o c signs flow) : flow.Framed := by
  cases hflow with
  | finish atEnd =>
    have hrun : ∀ f ∈ (o.emitRun c).emitted, f.Fits pool :=
      emitted_emit h.emitted (fits_of_mem h.coherent h.run) _ _
    refine ⟨pool, _, h.coherent, ?_⟩
    simp only [Outline.finish]
    split <;> exact hrun
  | gap next => exact ⟨pool, h.of_eq rfl rfl rfl⟩
  | openComment atEnd comment => exact ⟨pool, h.of_eq rfl rfl rfl⟩
  | openString atEnd string => exact ⟨pool, (h.beforeCode false c).of_eq rfl rfl rfl⟩
  | code acts => exact (h.beforeCode _ c).acts acts

theorem framed_initial (c : Cursor) (log : Log) : Framed [Stack.empty.frame] (initial c log) where
  coherent := by
    refine ⟨fun a ha => ?_, fun a ha b hb _ => ?_, fun a ha => ?_⟩
    · rw [List.mem_singleton.1 ha]
      exact ⟨rfl, iff_of_true rfl rfl, iff_of_true rfl rfl⟩
    · rw [List.mem_singleton.1 ha, List.mem_singleton.1 hb]
    · rw [List.mem_singleton.1 ha]
      exact Nat.le_refl _
  stack := List.Subset.refl _
  run := List.mem_singleton_self _
  emitted := by
    intro f hf
    cases hf

/-- The frames that the structural pass emits under are in a coherent pool. -/
theorem pooled_ofText (options : Options) (text : List Char) (log : Log) :
    (ofText options text log).Pooled :=
  ofText_meets (I := fun o _ _ => ∃ pool, Framed pool o) (F := fun o _ => o.Pooled)
    (fun ⟨_, h⟩ hflow => h.steps hflow) fun _ _ => ⟨_, framed_initial _ log⟩

end Outline

/-! ## The fragments of a scan -/

namespace Scan

variable {options : Options} {text : List Char} {scan : Scan}

/-- The frames of some fragments fit together. -/
structure FramesCohere (fs : List Fragment) : Prop where
  /-- The depth counts the contexts around the fragment. -/
  depth : ∀ f ∈ fs, f.parents.length = f.nesting - 1
  /-- Outside all contexts the fragment is global and in the scope of the document. -/
  root : ∀ f ∈ fs, f.degraded = false →
    (f.context = .global ↔ f.scope = Scope.root) ∧ (f.scope = Scope.root ↔ f.nesting = 0)
  /-- One scope has one context, depth and chain of contexts around it. -/
  same : ∀ f ∈ fs, ∀ g ∈ fs, f.degraded = false → g.degraded = false → f.scope = g.scope →
    f.context = g.context ∧ f.nesting = g.nesting ∧ f.parents = g.parents

/-- The frames of the fragments of a scan are coherent, wherever the fragments stand. -/
theorem framesCohere_fragments (h : ofText? options text = .ok scan) :
    FramesCohere scan.fragments := by
  obtain rfl := eq_ofText h
  obtain ⟨pool, bound, hcoherent, hemitted⟩ :=
    Outline.pooled_ofText options text (encodingRemarks text .empty)
  have hfits : ∀ f ∈ (ofText options text).fragments, f.Fits pool := by
    intro f hf
    have hmem := List.mem_map_of_mem (f := Fragment.unnumbered) hf
    rw [fragments_unnumbered] at hmem
    have hunnumbered := Fragment.assemble_forall (fun _ _ => Fragment.Fits.of_kin) options
      (fun g hg => hemitted g (List.mem_reverse.1 hg)) _ hmem
    have hkin : f.unnumbered.Kin f := ⟨rfl, rfl⟩
    exact hunnumbered.of_kin hkin
  refine ⟨fun f hf => (hfits f hf).depth, fun f hf hdegraded => ?_,
    fun f hf g hg hfd hgd hscope => ?_⟩
  · have hplaced := hcoherent.placed _ ((hfits f hf).known hdegraded)
    exact ⟨hplaced.root, hplaced.top⟩
  · have hsame := hcoherent.unique _ ((hfits f hf).known hfd) _ ((hfits g hg).known hgd) hscope
    exact ⟨congrArg Frame.context hsame, congrArg Frame.nesting hsame,
      congrArg Frame.parents hsame⟩

/-- A document with an element whose text goes on behind a style block. -/
theorem framesCohere_fragments_divided :
    ∃ scan, ofText? .standard "div \x7b a: 1; style \x7b b \x7d c: 2; \x7d".toList = .ok scan ∧
      (∃ f ∈ scan.fragments, ∃ g ∈ scan.fragments, f.start.offset < g.start.offset ∧
        f.scope = g.scope ∧ f.nesting = 1) ∧
      FramesCohere scan.fragments := by
  let text := "div \x7b a: 1; style \x7b b \x7d c: 2; \x7d".toList
  have hscan : ofText? .standard text = .ok (ofText .standard text) :=
    ofText?_eq_ok .standard (by decide) (by decide)
  have hdivided : ∃ f ∈ (ofText .standard text).fragments,
      ∃ g ∈ (ofText .standard text).fragments, f.start.offset < g.start.offset ∧
        f.scope = g.scope ∧ f.nesting = 1 := by
    decide +kernel
  exact ⟨_, hscan, hdivided, framesCohere_fragments hscan⟩

end Scan

end Polyglot
