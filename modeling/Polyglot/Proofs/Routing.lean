-- SUMMARY: Where a block lies decides the context of its fragments.
import Polyglot.Proofs.Scan

/-!
# Routing

What a brace opens is decided when the walk stands on it, by the innermost context
that is open there; a header in front of it may still wait, may have become a body, or
may have been dropped. `Frame.IsRouted` says what can be read off a frame alone: that
the context fits the contexts around it. Only contexts of the template language are
ever pushed, and a block is never pushed for longer than its own frame is made.
-/

namespace Polyglot

/-! ## Frames -/

/-- A context that others can lie in: one of the template language that is neither the
document itself nor a text block. -/
def Context.encloses (c : Context) : Bool :=
  c.isTemplate && !(c = .global || c = .textBlock)

namespace Frame

/-- The innermost context around is an element, or nothing is around and the document
counts as an element. -/
def InElement (rootAsElement : Bool) (a : Frame) : Prop :=
  a.parents.getLast? = some .elementBody ∨ a.parents = [] ∧ rootAsElement

/-- The context of the frame fits the contexts around it. -/
structure IsRouted (rootAsElement : Bool) (a : Frame) : Prop where
  /-- Local blocks lie in elements. -/
  inside : a.context = .styleLocal ∨ a.context = .scriptLocal → a.InElement rootAsElement
  /-- Global blocks do not. -/
  outside : a.context = .styleGlobal ∨ a.context = .scriptGlobal → ¬ a.InElement rootAsElement
  /-- Raw text lies in an origin block. -/
  origin : a.context.isRaw → a.parents.getLast? = some .originBody
  around : ∀ p ∈ a.parents, p.encloses

/-- Template text may lie in everything that encloses. -/
theorem isRouted_of_isTemplate {rootAsElement : Bool} {a : Frame} (h : a.context.isTemplate)
    (haround : ∀ p ∈ a.parents, p.encloses) : a.IsRouted rootAsElement := by
  refine ⟨?_, ?_, ?_, haround⟩ <;> intro hcontext
  · rcases hcontext with hcontext | hcontext <;> rw [hcontext] at h <;> cases h
  · rcases hcontext with hcontext | hcontext <;> rw [hcontext] at h <;> cases h
  · simp [Context.isTemplate, hcontext] at h

end Frame

/-! ## Block keywords -/

namespace BlockKeyword

variable {k : BlockKeyword} {rootAsElement : Bool} {around : Context}

theorem isLocal_of_context (h : k.context rootAsElement around = .styleLocal ∨
    k.context rootAsElement around = .scriptLocal) : isLocal rootAsElement around := by
  cases hlocal : isLocal rootAsElement around with
  | true => rfl
  | false => cases k <;> simp [context, hlocal] at h

theorem not_isLocal_of_context (h : k.context rootAsElement around = .styleGlobal ∨
    k.context rootAsElement around = .scriptGlobal) : ¬ isLocal rootAsElement around := by
  intro hlocal
  cases k <;> simp [context, hlocal] at h

theorem isRaw_context : (k.context rootAsElement around).isRaw = false := by
  cases hlocal : isLocal rootAsElement around <;> cases k <;> simp [context, hlocal, Context.isRaw]

end BlockKeyword

/-! ## Stacks -/

namespace Stack

variable {s t : Stack} {rootAsElement : Bool}

/-- Only contexts that enclose others are open. -/
def Encloses (s : Stack) : Prop := ∀ e ∈ s.entries, e.context.encloses

theorem Encloses.of_suffix (h : s.Encloses) (hsuffix : t.entries <:+ s.entries) : t.Encloses :=
  fun e he => h e (hsuffix.subset he)

theorem Encloses.enter (h : s.Encloses) {context : Context} (hcontext : context.encloses)
    (kind : EntryKind) (pos : Position) : (s.enter context kind pos).Encloses := by
  intro e he
  rcases List.mem_cons.1 he with rfl | he
  · exact hcontext
  · exact h e he

theorem Encloses.openHeaderBody (h : s.Encloses) {pos : Position}
    (hopen : s.openHeaderBody pos = some t) : t.Encloses := by
  obtain ⟨e, below, lastScope, rfl, rfl⟩ := openHeaderBody_some hopen
  intro x hx
  rcases List.mem_cons.1 hx with rfl | hx
  · exact h e List.mem_cons_self
  · exact h x (List.mem_cons_of_mem e hx)

/-- Around an entered context lies all that was open. -/
theorem parents_enter (s : Stack) (context : Context) (kind : EntryKind) (pos : Position) :
    (s.enter context kind pos).frame.parents = (s.entries.map Entry.context).reverse := rfl

theorem Encloses.around (h : s.Encloses) (context : Context) (kind : EntryKind)
    (pos : Position) : ∀ p ∈ (s.enter context kind pos).frame.parents, p.encloses := by
  intro p hp
  rw [parents_enter, List.mem_reverse] at hp
  obtain ⟨e, he, rfl⟩ := List.mem_map.1 hp
  exact h e he

theorem Encloses.frame (h : s.Encloses) : s.frame.IsRouted rootAsElement := by
  obtain ⟨entries, lastScope⟩ := s
  cases entries with
  | nil =>
    refine Frame.isRouted_of_isTemplate rfl ?_
    intro p hp
    cases hp
  | cons e below =>
    have he := h e List.mem_cons_self
    simp only [Context.encloses, Bool.and_eq_true] at he
    refine Frame.isRouted_of_isTemplate he.1 fun p hp => ?_
    obtain ⟨x, hx, rfl⟩ := List.mem_map.1 (List.mem_reverse.1 hp)
    exact h x (List.mem_cons_of_mem e hx)

/-- A block is local just where its frame lies in an element. -/
theorem Encloses.inElement_iff (h : s.Encloses) (rootAsElement : Bool) (context : Context)
    (kind : EntryKind) (pos : Position) : (s.enter context kind pos).frame.InElement rootAsElement ↔
      BlockKeyword.isLocal rootAsElement s.current := by
  obtain ⟨entries, lastScope⟩ := s
  unfold Frame.InElement
  rw [parents_enter]
  cases entries with
  | nil => simp [BlockKeyword.isLocal, current, top]
  | cons e below =>
    have hglobal : e.context ≠ .global := by
      intro hglobal
      have he := h e List.mem_cons_self
      rw [hglobal] at he
      cases he
    have hcurrent : (⟨e :: below, lastScope⟩ : Stack).current = e.context := rfl
    rw [hcurrent]
    simp [BlockKeyword.isLocal, hglobal]

/-- The body of a block keyword is routed by what is open at its brace. -/
theorem Encloses.block (h : s.Encloses) (k : BlockKeyword) (kind : EntryKind) (pos : Position) :
    (s.enter (k.context rootAsElement s.current) kind pos).frame.IsRouted rootAsElement := by
  have hin := h.inElement_iff rootAsElement (k.context rootAsElement s.current) kind pos
  have hcontext : (s.enter (k.context rootAsElement s.current) kind pos).frame.context =
    k.context rootAsElement s.current := rfl
  refine ⟨?_, ?_, ?_, h.around _ kind pos⟩ <;> rw [hcontext]
  · rw [hin]
    exact BlockKeyword.isLocal_of_context
  · rw [hin]
    exact BlockKeyword.not_isLocal_of_context
  · rw [BlockKeyword.isRaw_context]
    exact fun hraw => Bool.noConfusion hraw

/-- Raw text that is entered on top of an origin block is routed. -/
theorem Encloses.raw {e : Entry} {below : List Entry} (h : s.Encloses)
    (htop : s.entries = e :: below) (horigin : e.context = .originBody) {raw : Context}
    (hraw : raw.isRaw) (kind : EntryKind) (pos : Position) :
    (s.enter raw kind pos).frame.IsRouted rootAsElement := by
  have hcontext : (s.enter raw kind pos).frame.context = raw := rfl
  refine ⟨?_, ?_, ?_, h.around raw kind pos⟩
  · rw [hcontext]
    rintro (rfl | rfl) <;> cases hraw
  · rw [hcontext]
    rintro (rfl | rfl) <;> cases hraw
  · intro _
    simp [parents_enter, htop, horigin]

end Stack

/-! ## The structural pass -/

/-- The frame is routed, unless error recovery made the fragment. -/
def Fragment.KeepsRoute (rootAsElement : Bool) (f : Fragment) : Prop :=
  f.degraded = false → f.toFrame.IsRouted rootAsElement

theorem Fragment.KeepsRoute.of_kin {rootAsElement : Bool} {f g : Fragment} (hfg : f.Kin g)
    (h : f.KeepsRoute rootAsElement) : g.KeepsRoute rootAsElement := by
  obtain ⟨hframe, hdegraded⟩ := hfg
  intro hg
  rw [← hframe]
  exact h (hdegraded.trans hg)

theorem Frame.IsRouted.fragment {rootAsElement : Bool} {a : Frame} (h : a.IsRouted rootAsElement)
    (id : FragmentId) (content : List Char) (start stop : Position) :
    (a.fragment false id content start stop).KeepsRoute rootAsElement := fun _ => h

namespace Outline

variable {options : Options} {rootAsElement : Bool} {o : Outline} {c : Cursor}

/-- Only contexts that enclose others are open, and the run and all that was emitted
are routed. -/
structure Routed (rootAsElement : Bool) (o : Outline) : Prop where
  stack : o.stack.Encloses
  run : o.run.IsRouted rootAsElement
  emitted : ∀ f ∈ o.emitted, f.KeepsRoute rootAsElement

theorem Routed.of_eq {o' : Outline} (h : Routed rootAsElement o) (hstack : o'.stack = o.stack)
    (hrun : o'.run = o.run) (hemitted : o'.emitted = o.emitted) : Routed rootAsElement o' := by
  obtain ⟨stack, run, emitted⟩ := h
  rw [← hstack] at stack
  rw [← hrun] at run
  rw [← hemitted] at emitted
  exact ⟨stack, run, emitted⟩

theorem Routed.changeStack (h : Routed rootAsElement o) (c : Cursor) {stack : Stack}
    (hstack : stack.Encloses) : Routed rootAsElement (o.changeStack c stack) := by
  have hemitted := emitted_changeStack h.emitted h.run.fragment c stack
  obtain ⟨hsame, -⟩ := changeStack_frame o c stack
  refine ⟨hsame.symm ▸ hstack, ?_, hemitted⟩
  by_cases hcontext : stack.current = o.run.context
  · rw [changeStack_of_eq o c hcontext]
    exact h.run
  · rw [changeStack_of_ne o c hcontext]
    exact hstack.frame

theorem Routed.beforeCode (h : Routed rootAsElement o) (isBrace : Bool) (c : Cursor) :
    Routed rootAsElement (o.beforeCode isBrace c) := by
  obtain ⟨-, hbefore⟩ | ⟨-, hbefore⟩ := o.beforeCode_cases isBrace c
  · rw [hbefore]
    exact (h.changeStack c (h.stack.of_suffix o.stack.endHeader_suffix.1)).of_eq rfl rfl rfl
  · rw [hbefore]
    exact h.of_eq rfl rfl rfl

/-- How a step goes on with everything routed. -/
def Flow.Routed (rootAsElement : Bool) (flow : Flow c) : Prop :=
  flow.Meets (fun o _ => Outline.Routed rootAsElement o)
    fun o => ∀ f ∈ o.emitted, f.KeepsRoute rootAsElement

/-- A block is read into fragments of its frame, between those of the run. -/
theorem Routed.embeds {context : Context} {flow : Flow c} (h : Routed rootAsElement o)
    (hblock : (o.stack.enter context .brace c.position).frame.IsRouted rootAsElement)
    (hflow : Embeds options o context c flow) : flow.Routed rootAsElement := by
  have hstack : (⟨o.stack.entries, o.stack.lastScope + 1⟩ : Stack).Encloses := h.stack
  cases hflow with
  | @unclosed unbalanced unmatched =>
    obtain ⟨log, hissue⟩ := o.elim_guardIssue unbalanced.issue
    rw [hissue]
    have hbefore := emitted_emit (o := { o with log := log }) h.emitted h.run.fragment o.mark
      c.advance.skipBlank
    refine emitted_emit ?_ ?_ _ _
    · exact hbefore
    · intro id content start stop hdegraded
      cases hdegraded
  | blank closed => exact ⟨hstack, h.run, h.emitted⟩
  | body closed trimmed nonempty =>
    exact ⟨hstack, h.stack.frame,
      emitted_emitBody (emitted_emit h.emitted h.run.fragment _ _) hblock.fragment _ _⟩

theorem encloses_of_declared {word : String} {context : Context}
    (h : Context.ofDeclaration? word = some context) : context.encloses := by
  unfold Context.ofDeclaration? at h
  split at h <;> cases h <;> rfl

/-- At the brace of an origin block, the block lies on top of what encloses it. -/
theorem Routed.openOrigin (h : Routed rootAsElement o) (c brace : Cursor) {raw : Context}
    (hraw : raw.isRaw) : Routed rootAsElement (o.openOrigin c brace) ∧
      ((o.openOrigin c brace).stack.enter raw .brace brace.position).frame.IsRouted
        rootAsElement := by
  obtain ⟨e, horigin, hstack, -⟩ := o.openOrigin_frame c brace
  have hencloses : (o.openOrigin c brace).stack.Encloses := by
    rw [hstack]
    intro x hx
    rcases List.mem_cons.1 hx with rfl | hx
    · rw [horigin]
      rfl
    · exact h.stack x hx
  have hother : Routed rootAsElement { o with head := .other } := h.of_eq rfl rfl rfl
  have hentered := hother.changeStack c
    (h.stack.enter (show Context.originBody.encloses from rfl) .header c.position)
  exact ⟨⟨hencloses, hentered.run, hentered.emitted⟩,
    hencloses.raw (congrArg Stack.entries hstack) horigin hraw .brace brace.position⟩

theorem Routed.acts {signs : List Sign} {flow : Flow c} (h : Routed options.rootAsElement o)
    (hflow : Acts options o c signs flow) : flow.Routed options.rootAsElement := by
  cases hflow with
  | pass next begins => exact h.of_eq rfl rfl rfl
  | openBody after brace opened => exact ⟨h.stack.openHeaderBody opened, h.run, h.emitted⟩
  | @openElement context after brace noHeader kind =>
    have hcontext : context.encloses := by
      rcases kind with rfl | rfl <;> rfl
    exact (h.changeStack after.cursor (h.stack.enter hcontext .brace c.position)).of_eq rfl rfl rfl
  | closeBrace after brace =>
    have hclosed := h.changeStack after.cursor (h.stack.of_suffix o.stack.closeBrace_suffix.1)
    simp only [Outline.closeBrace]
    split <;> exact hclosed.of_eq rfl rfl rfl
  | semicolon after =>
    have hended := h.changeStack after.cursor (h.stack.of_suffix o.stack.endHeader_suffix.1)
    exact hended.of_eq rfl rfl rfl
  | header next start declared =>
    obtain ⟨word, hword⟩ := declared
    have hother : Routed options.rootAsElement { o with head := .other } := h.of_eq rfl rfl rfl
    exact hother.changeStack c (h.stack.enter (encloses_of_declared hword) .header c.position)
  | block after keyword brace embeds => exact h.embeds (h.stack.block _ .brace c.position) embeds
  | originStop brace start isRaw isBrace embeds =>
    obtain ⟨hopened, hblock⟩ := h.openOrigin c brace.cursor isRaw
    have hstop := hopened.embeds hblock embeds
    exact hstop
  | @origin raw o' brace next start isRaw isBrace embeds =>
    obtain ⟨hopened, hblock⟩ := h.openOrigin c brace.cursor isRaw
    have hread : Routed options.rootAsElement o' := hopened.embeds hblock embeds
    exact hread.changeStack _ (hread.stack.of_suffix (Stack.exit_suffix _ _).1)

/-- A step keeps everything routed. -/
theorem Routed.steps {signs : List Sign} {flow : Flow c} (h : Routed options.rootAsElement o)
    (hflow : Steps options o c signs flow) : flow.Routed options.rootAsElement := by
  cases hflow with
  | finish atEnd =>
    have hrun : ∀ f ∈ (o.emitRun c).emitted, f.KeepsRoute options.rootAsElement :=
      emitted_emit h.emitted h.run.fragment _ _
    simp only [Outline.finish]
    split <;> exact hrun
  | gap next => exact h.of_eq rfl rfl rfl
  | openComment atEnd comment => exact h.of_eq rfl rfl rfl
  | openString atEnd string => exact (h.beforeCode false c).of_eq rfl rfl rfl
  | code acts => exact (h.beforeCode _ c).acts acts

theorem routed_initial (rootAsElement : Bool) (c : Cursor) (log : Log) :
    Routed rootAsElement (initial c log) := by
  have hempty : Stack.empty.Encloses := by
    intro e he
    cases he
  refine ⟨hempty, hempty.frame, ?_⟩
  intro f hf
  cases hf

/-- The structural pass routes every fragment. -/
theorem keepsRoute_ofText (options : Options) (text : List Char) (log : Log) :
    ∀ f ∈ (ofText options text log).emitted, f.KeepsRoute options.rootAsElement :=
  ofText_meets (I := fun o _ _ => Routed options.rootAsElement o)
    (F := fun o _ => ∀ f ∈ o.emitted, f.KeepsRoute options.rootAsElement)
    (fun h hflow => h.steps hflow) fun _ _ => routed_initial _ _ log

end Outline

/-! ## The fragments of a scan -/

/-- The fragment is routed by where its block lies, and only a local script can have
features or go to the compiler of the extended dialect. -/
structure Fragment.IsRouted (rootAsElement : Bool) (f : Fragment) : Prop where
  frame : f.toFrame.IsRouted rootAsElement
  features : f.features ≠ .none → f.context = .scriptLocal
  target : f.target = .scriptExtension → f.context = .scriptLocal

/-- Only a local script goes to the compiler of the extended dialect. -/
theorem Fragment.context_of_target {f : Fragment} (h : f.target = .scriptExtension) :
    f.context = .scriptLocal := by
  unfold Fragment.target at h
  split at h
  case h_4 hcontext => exact hcontext
  all_goals first | assumption | cases h

/-- To classify notes features of local scripts only. -/
theorem Fragment.features_classify {f : Fragment} (h : f.context ≠ .scriptLocal) :
    f.classify.features = f.features := by
  unfold Fragment.classify
  split
  · next hlocal => exact absurd hlocal h
  all_goals rfl

namespace Scan

variable {options : Options} {text : List Char} {scan : Scan}

/-- Features are found in local scripts only. -/
theorem context_of_features {f : Fragment} (hf : f ∈ (ofText options text).fragments)
    (hfeatures : f.features ≠ .none) : f.context = .scriptLocal := by
  by_contra hcontext
  obtain ⟨u, hu, hsame, hblock⟩ := exists_block_classify hf hcontext
  have hkept : f.features = u.classify.features := (congrArg Fragment.features hblock :)
  rw [← hsame] at hcontext
  rw [Fragment.features_classify hcontext, (blocks_sound hu).unclassified.1] at hkept
  exact hfeatures hkept

/-- Every fragment of a scan is routed by where its block lies, unless error recovery
made it. -/
theorem isRouted_fragments (h : ofText? options text = .ok scan) :
    ∀ f ∈ scan.fragments, f.degraded = false → f.IsRouted options.rootAsElement := by
  obtain rfl := eq_ofText h
  intro f hf hdegraded
  refine ⟨?_, context_of_features hf, Fragment.context_of_target⟩
  have hmem := List.mem_map_of_mem (f := Fragment.unnumbered) hf
  rw [fragments_unnumbered] at hmem
  have hroute := Fragment.assemble_forall (fun _ _ => Fragment.KeepsRoute.of_kin) options
    (fun g hg => Outline.keepsRoute_ofText options text _ g (List.mem_reverse.1 hg)) _ hmem
  exact hroute hdegraded

/-- A document whose scripts are local in an element and global in a namespace. -/
theorem isRouted_fragments_nested : ∃ scan,
    ofText? .standard
      "p \x7b script \x7b listen(b) \x7d \x7d [Namespace] n \x7b script \x7b c \x7d \x7d".toList =
        .ok scan ∧
    (∃ f ∈ scan.fragments, f.context = .scriptLocal ∧ f.features ≠ .none) ∧
    (∃ f ∈ scan.fragments, f.context = .scriptGlobal) ∧
    ∀ f ∈ scan.fragments, f.degraded = false → f.IsRouted true := by
  let text :=
    "p \x7b script \x7b listen(b) \x7d \x7d [Namespace] n \x7b script \x7b c \x7d \x7d".toList
  have hscan : ofText? .standard text = .ok (ofText .standard text) :=
    ofText?_eq_ok .standard (by decide) (by decide)
  have hlocal : ∃ f ∈ (ofText .standard text).fragments,
      f.context = .scriptLocal ∧ f.features ≠ .none := by decide +kernel
  have hglobal : ∃ f ∈ (ofText .standard text).fragments, f.context = .scriptGlobal := by
    decide +kernel
  exact ⟨_, hscan, hlocal, hglobal, isRouted_fragments hscan⟩

end Scan

end Polyglot
