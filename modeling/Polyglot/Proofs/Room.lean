-- SUMMARY: The scopes and numbers that a scan gives out, bounded by the length of its document.
import Polyglot.Proofs.Counter
import Polyglot.Proofs.Loop

/-!
# Room for scopes and numbers

Scopes and fragment numbers are stored in 32 bits, and a scan counts them without a check. The
structural pass opens at most one context for each byte that it reads (`Outline.Roomy`). So in
a document that is not too large it opens none that `Stack.enter?` would refuse
(`Outline.enter?_of_walks`), and all scopes fit.

Fragments and units have text, so there are no more of them than bytes. Merging gives out no
more numbers than there are fragments, so in a document of less than 2 GiB the numbers of all
fragments fit. Each time that units are taken, as many numbers as bytes may follow
(`Scan.within_scan`).
-/

namespace Polyglot

/-! ## Bytes ahead -/

theorem Cursor.Reaches.byteLength_le {c d : Cursor} (h : c.Reaches d) :
    byteLength d.rest ≤ byteLength c.rest := by
  obtain ⟨u, hrest, -⟩ := h
  rw [show c.rest = u ++ d.rest from hrest, byteLength_append]
  exact Nat.le_add_left _ _

theorem Cursor.StrictlyReaches.byteLength_lt {c d : Cursor} (h : c.StrictlyReaches d) :
    byteLength d.rest < byteLength c.rest := by
  obtain ⟨ch, u, hrest, -⟩ := h
  have hch := ch.utf8Size_pos
  rw [show c.rest = ch :: u ++ d.rest from hrest, byteLength_append, byteLength_cons]
  omega

theorem byteLength_pos {text : List Char} (h : text ≠ []) : 0 < byteLength text :=
  Nat.lt_of_lt_of_le (List.length_pos_iff.2 h) (length_le_byteLength text)

/-- There are no more fragments than bytes. -/
theorem Fragment.Tiles.length_le {P : Cursor → Prop} {c e : Cursor} {fs : List Fragment}
    (h : Tiles P c fs e) : fs.length + byteLength e.rest ≤ byteLength c.rest := by
  induction h with
  | nil => exact Nat.le_of_eq (Nat.zero_add _)
  | @cons c d e f fs covers _ _ ih =>
    have htext := byteLength_pos covers.text
    rw [covers.read.1, byteLength_append, List.length_cons]
    omega

namespace Outline

variable {options : Options} {o o' : Outline} {c d : Cursor} {text : List Char} {room : Nat}

/-! ## Scopes -/

/-- There is room for one more scope for each byte ahead, and those in use were given out. -/
structure Roomy (room : Nat) (o : Outline) (c : Cursor) : Prop where
  ahead : o.stack.lastScope + byteLength c.rest ≤ room
  bounded : o.Bounded

/-- One more scope at most was given out than at `c`, and one byte at least was read. -/
theorem Roomy.later (h : o.Roomy room c) (hgrows : o.Grows o') (hcd : c.StrictlyReaches d)
    (hscope : o'.stack.lastScope ≤ o.stack.lastScope + 1) : o'.Roomy room d := by
  refine ⟨?_, hgrows.bounded h.bounded⟩
  have hread := hcd.byteLength_lt
  calc o'.stack.lastScope + byteLength d.rest
      ≤ o.stack.lastScope + (byteLength d.rest + 1) := by
        rw [Nat.add_comm (byteLength d.rest), ← Nat.add_assoc]
        exact Nat.add_le_add_right hscope _
    _ ≤ o.stack.lastScope + byteLength c.rest := Nat.add_le_add_left hread _
    _ ≤ room := h.ahead

theorem Roomy.of_eq (h : o.Roomy room c) (hstack : o'.stack = o.stack) (hrun : o'.run = o.run)
    (hemitted : o'.emitted = o.emitted) : o'.Roomy room c :=
  ⟨hstack ▸ h.ahead, (Grows.of_eq hstack hrun hemitted).bounded h.bounded⟩

theorem Roomy.onward (h : o.Roomy room c) (hcd : c.Reaches d) : o.Roomy room d :=
  ⟨Nat.le_trans (Nat.add_le_add_left hcd.byteLength_le _) h.ahead, h.bounded⟩

theorem Roomy.lastScope_le (h : o.Roomy room c) : o.stack.lastScope ≤ room :=
  Nat.le_trans (Nat.le_add_right _ _) h.ahead

/-- Ahead of a byte one more context may be opened. -/
theorem Roomy.lastScope_lt (h : o.Roomy room c) (hc : c.rest ≠ []) : o.stack.lastScope < room :=
  Nat.lt_of_lt_of_le (Nat.lt_add_of_pos_right (byteLength_pos hc)) h.ahead

theorem Roomy.beforeCode (h : o.Roomy room c) (isBrace : Bool) (c' : Cursor) :
    (o.beforeCode isBrace c').Roomy room c := by
  refine ⟨?_, (o.grows_beforeCode isBrace c').bounded h.bounded⟩
  obtain ⟨-, hbefore⟩ | ⟨-, hbefore⟩ := o.beforeCode_cases isBrace c'
  · obtain ⟨hstack, -⟩ := changeStack_frame o c' o.stack.endHeader.2
    rw [hbefore]
    change (o.changeStack c' o.stack.endHeader.2).stack.lastScope + _ ≤ _
    rw [hstack, o.stack.endHeader_suffix.2]
    exact h.ahead
  · rw [hbefore]
    exact h.ahead

theorem Roomy.openOrigin (h : o.Roomy room c) (brace : c.Later) :
    (o.openOrigin c brace.cursor).Roomy room brace.cursor := by
  refine h.later (o.grows_openOrigin c brace.cursor) brace.strictlyReaches (Nat.le_of_eq ?_)
  rw [stack_openOrigin]

/-- The pass goes on with room left, or ends with all scopes within it. -/
abbrev Flow.Roomy (room : Nat) (flow : Flow c) : Prop :=
  flow.Meets (fun o d => o.Roomy room d) fun o => ∀ f ∈ o.emitted, f.scope ≤ room

/-- What ends the pass emits the run, under a scope in use. -/
theorem Roomy.emitRun (h : o.Roomy room c) (d : Cursor) :
    ∀ f ∈ (o.emitRun d).emitted, f.scope ≤ room := by
  have hemitted : ∀ f ∈ o.emitted, f.scope ≤ room :=
    fun f hf => Nat.le_trans (h.bounded.emitted f hf) h.lastScope_le
  have hrun : o.run.scope ≤ room :=
    Nat.le_trans (h.bounded.live _ (.inr (.inl rfl))) h.lastScope_le
  exact emitted_emit hemitted (fun _ _ _ _ => hrun) _ _

theorem Roomy.embeds {context : Context} {flow : Flow c} (h : o.Roomy room c) (hc : c.rest ≠ [])
    (hflow : Embeds options o context c flow) : flow.Roomy room := by
  have hafter := EmbedsBy.after hflow
  cases hflow with
  | @unclosed unbalanced unmatched =>
    obtain ⟨log, hissue⟩ := o.elim_guardIssue unbalanced.issue
    have hlogged : ({ o with log := log } : Outline).Roomy room c := h.of_eq rfl rfl rfl
    have hscope : (o.stack.enter context .brace c.position).frame.scope ≤ room :=
      h.lastScope_lt hc
    rw [hissue]
    have hrun := hlogged.emitRun c.advance.skipBlank
    refine emitted_emit (o := Outline.fault _ (.unclosedBlock context unbalanced.depth) c) hrun
      (fun _ _ _ _ => ?_) _ _
    exact hscope
  | @blank close =>
    exact h.later hafter close.advance.strictlyReaches (Nat.le_refl _)
  | @body close =>
    exact h.later hafter close.advance.strictlyReaches (Nat.le_refl _)

theorem Roomy.acts {signs : List Sign} {flow : Flow c} (h : o.Roomy room c)
    (hflow : Acts options o c signs flow) : flow.Roomy room := by
  have hc := hflow.ahead
  have hafter := hflow.after
  cases hflow with
  | pass next begins => exact h.later hafter next.strictlyReaches (Nat.le_succ _)
  | openBody after brace opened =>
    obtain ⟨e, below, lastScope, hbefore, rfl⟩ := Stack.openHeaderBody_some opened
    refine h.later hafter after.strictlyReaches ?_
    rw [hbefore]
    exact Nat.le_succ _
  | @openElement context after brace noHeader kind =>
    refine h.later hafter after.strictlyReaches (Nat.le_of_eq ?_)
    exact congrArg Stack.lastScope (changeStack_frame o after.cursor _).1
  | closeBrace after brace =>
    refine h.later hafter after.strictlyReaches ?_
    have hstack : (o.closeBrace c after).stack = o.stack.closeBrace.2 := by
      have hchange := (changeStack_frame o after.cursor o.stack.closeBrace.2).1
      unfold Outline.closeBrace
      simp only
      split <;> exact hchange
    rw [hstack, o.stack.closeBrace_suffix.2]
    exact Nat.le_succ _
  | semicolon after =>
    refine h.later hafter after.strictlyReaches ?_
    have hstack : (o.semicolon after).stack = o.stack.endHeader.2 :=
      (changeStack_frame o after.cursor o.stack.endHeader.2).1
    rw [hstack, o.stack.endHeader_suffix.2]
    exact Nat.le_succ _
  | @header context next start declared =>
    refine h.later hafter next.strictlyReaches (Nat.le_of_eq ?_)
    exact congrArg Stack.lastScope (changeStack_frame { o with head := .other } c _).1
  | block after keyword brace embeds => exact h.embeds hc embeds
  | originStop brace start isRaw isBrace embeds =>
    have hbrace : brace.cursor.rest ≠ [] := fun hnil => by simp [hnil] at isBrace
    exact (h.openOrigin brace).embeds hbrace embeds
  | @origin raw o' brace next start isRaw isBrace embeds =>
    have hbrace : brace.cursor.rest ≠ [] := fun hnil => by simp [hnil] at isBrace
    have hread : o'.Roomy room next.cursor := (h.openOrigin brace).embeds hbrace embeds
    -- the origin is exited where its body was read, and no scope is given out for that
    have hsuffix := o'.stack.exit_suffix .originBody
    refine ⟨?_, (grows_close o' next.cursor hsuffix).bounded hread.bounded⟩
    rw [(changeStack_frame o' next.cursor _).1, hsuffix.2]
    exact hread.ahead

/-- Every step leaves room for the bytes that are still ahead. -/
theorem Roomy.steps {signs : List Sign} {flow : Flow c} (h : o.Roomy room c)
    (hflow : Steps options o c signs flow) : flow.Roomy room := by
  have hafter := hflow.after
  cases hflow with
  | finish atEnd =>
    have hrun := h.emitRun c
    simp only [Outline.finish]
    split <;> exact hrun
  | gap next => exact h.later hafter next.strictlyReaches (Nat.le_succ _)
  | @openComment issue next => exact h.later hafter next.strictlyReaches (Nat.le_succ _)
  | @openString issue next =>
    have hbefore := (h.beforeCode false c).onward next.reaches
    exact hbefore.of_eq rfl rfl rfl
  | code acts => exact (h.beforeCode _ c).acts acts

theorem Roomy.walks {p : Outline} (h : o.Roomy room c) (hwalk : Walks options o c p d) :
    p.Roomy room d := by
  induction hwalk with
  | refl => exact h
  | @step o _ _ c _ _ onward _ ih =>
    have hmeets := h.steps (Outline.steps options o c)
    rw [onward] at hmeets
    exact ih hmeets

theorem roomy_initial (text : List Char) (log : Log) {first : Cursor}
    (hfirst : (⟨.start, text⟩ : Cursor).Reaches first) :
    (initial ⟨.start, text⟩ log).Roomy (byteLength text) first :=
  ⟨(Nat.zero_add _).trans_le hfirst.byteLength_le, bounded_initial _ log⟩

/-- In a document that is not too large, no context that the pass may open in front of some
text is refused for want of a scope, neither before a step nor at the brace of an origin. -/
theorem enter?_of_walks {log : Log} (hsize : byteLength text ≤ EncodingIssue.sizeLimit)
    (h : Walks options (initial ⟨.start, text⟩ log) (firstCursor text) o c) (context : Context)
    (kind : EntryKind) (pos : Position) :
    (∀ isBrace, c.rest ≠ [] →
      (o.beforeCode isBrace c).stack.enter? context kind pos =
        some ((o.beforeCode isBrace c).stack.enter context kind pos)) ∧
    ∀ isBrace, ∀ brace : c.Later, brace.cursor.rest ≠ [] →
      let opened := (o.beforeCode isBrace c).openOrigin c brace.cursor
      opened.stack.enter? context kind pos = some (opened.stack.enter context kind pos) := by
  have hwalked : o.Roomy (byteLength text) c :=
    (roomy_initial text log (reaches_firstCursor text)).walks h
  have henter : ∀ {p : Outline} {d : Cursor}, p.Roomy (byteLength text) d → d.rest ≠ [] →
      p.stack.enter? context kind pos = some (p.stack.enter context kind pos) := by
    intro p d hp hd
    refine Stack.enter?_eq_some_iff.2 ⟨rfl, Nat.lt_succ_of_le ?_⟩
    exact Nat.le_trans (hp.lastScope_lt hd) hsize
  exact ⟨fun isBrace hc => henter (hwalked.beforeCode isBrace c) hc, fun isBrace brace hbrace =>
    henter ((hwalked.beforeCode isBrace c).openOrigin brace) hbrace⟩

theorem scope_le_of_emitted (options : Options) (text : List Char) (log : Log) :
    ∀ f ∈ (ofText options text log).emitted, f.scope ≤ byteLength text :=
  ofText_meets (I := fun o c _ => o.Roomy (byteLength text) c)
    (F := fun o _ => ∀ f ∈ o.emitted, f.scope ≤ byteLength text)
    (fun h hflow => h.steps hflow) fun _ hfirst => roomy_initial text log hfirst

end Outline

/-! ## Numbers -/

namespace Fragment

/-- Merging gives out no more numbers than there are fragments. -/
theorem issued_aggregate_le (issued : Nat) (fs : List Fragment) :
    (aggregate issued fs).2 ≤ issued + fs.length := by
  have hrun : ∀ (done : List Fragment) (issued : Nat) (run : List Fragment),
      (addRun (done, issued) run).2 ≤ issued + run.length := by
    intro done issued run
    match run with
    | [] => exact Nat.le_refl _
    | [f] => exact Nat.le_succ _
    | f :: g :: rest => exact Nat.add_le_add_left (Nat.succ_pos _) _
  have hruns : ∀ (runs : List (List Fragment)) (done : List Fragment) (issued : Nat),
      (runs.foldl addRun (done, issued)).2 ≤ issued + runs.flatten.length := by
    intro runs
    induction runs with
    | nil => exact fun _ _ => Nat.le_refl _
    | cons run runs ih =>
      intro done issued
      rw [List.foldl_cons, List.flatten_cons, List.length_append, ← Nat.add_assoc]
      exact (ih _ _).trans (Nat.add_le_add_right (hrun done issued run) _)
  have hall := hruns (fs.splitBy mergeable) [] issued
  rwa [List.flatten_splitBy] at hall

/-- Stitching makes no more fragments of them. -/
theorem length_stitchAll_le (window : Nat) (fs : List Fragment) :
    (stitchAll window fs).length ≤ fs.length := by
  have hlength := (ids_stitchAll window fs).length_le
  rwa [List.length_map, List.length_map] at hlength

end Fragment

namespace Scan

variable {options : Options} {text : List Char} {scan : Scan}

/-- The pieces of a block tile it. -/
theorem pieces_tiles {u : Fragment} (hu : u ∈ blocks options text) :
    ∃ P, Fragment.Tiles P u.cursor (u.pieces options) ⟨u.stop, []⟩ := by
  by_cases hcut : u.context = .scriptLocal ∧ options.splitStatements
  · have hpieces : u.pieces options = u.statements := if_pos (by simpa using hcut)
    exact ⟨_, hpieces ▸ statements_tiles hu hcut.1⟩
  · rw [Outline.pieces_of_not hcut]
    exact ⟨fun _ => True, .cons (Fragment.covers_unnumbered.2 (covers_cursor hu)) trivial (.nil _)⟩

/-- The structural pass gives out a number for each fragment that it emits. -/
theorem issued_outline (options : Options) (text : List Char) :
    (Outline.ofText options text (encodingRemarks text .empty)).issued =
      (Outline.ofText options text (encodingRemarks text .empty)).fragments.length := by
  have hids := congrArg List.length
    (Outline.numbered_ofText options text (encodingRemarks text .empty))
  rw [List.length_map, List.length_reverse, List.length_range] at hids
  rw [Outline.fragments, List.length_reverse, hids]

theorem length_outline_le (options : Options) (text : List Char) :
    (Outline.ofText options text (encodingRemarks text .empty)).fragments.length ≤
      byteLength text := by
  obtain ⟨e, -, htiles⟩ := blocks_tiles options text
  have hpieces := (htiles.flatMap fun u hu => pieces_tiles hu).length_le
  rw [blocks, ← (Outline.mirrors_ofText options text _).emitted, List.length_map] at hpieces
  exact (Nat.le_add_right _ _).trans hpieces

/-- The scopes of a scan, and the numbers that it has given out when units were taken some
times, by the length of the document. -/
structure Within (length : Nat) (s : Scan) : Prop where
  scopes : ∀ f ∈ s.fragments, f.scope ≤ length
  issued : ∀ n, (s.afterUnits n).issued ≤ (n + 2) * length

theorem issued_le (options : Options) (text : List Char) :
    (ofText options text).issued ≤ 2 * byteLength text := by
  have hissued := issued_outline options text
  have hlength := length_outline_le options text
  unfold ofText
  generalize Outline.ofText options text (encodingRemarks text .empty) = outline
    at hissued hlength ⊢
  have hstitched := Fragment.length_stitchAll_le options.stitchWindow outline.fragments
  cases options.aggregate with
  | true =>
    have hmerged := Fragment.issued_aggregate_le outline.issued
      ((Fragment.stitchAll options.stitchWindow outline.fragments).map Fragment.classify)
    rw [List.length_map] at hmerged
    simp only [if_true]
    omega
  | false =>
    simp only [Bool.false_eq_true, if_false]
    omega

/-- In the scan of a document no scope and no number is larger than its length allows. -/
theorem within_scan (h : ofText? options text = .ok scan) : scan.Within (byteLength text) := by
  obtain rfl := eq_ofText h
  refine ⟨fun f hf => ?_, fun n => ?_⟩
  · obtain ⟨u, hu, hwork⟩ := exists_block hf
    have hscope : u.scope = f.scope := congrArg Frame.scope (kin_work hu hwork).1
    exact hscope ▸ Outline.scope_le_of_emitted options.unsplit text _ u (List.mem_reverse.1 hu)
  · induction n with
    | zero => exact issued_le options text
    | succ n ih =>
      obtain ⟨units, htake, -, hunits⟩ := takeUnits_spec ((ofText options text).afterUnits n)
      rw [fragments_afterUnits] at hunits
      obtain ⟨e, -, htiles⟩ := units_tiles options text hunits
      have hlength : units.length ≤ byteLength text :=
        (Nat.le_add_right _ _).trans htiles.length_le
      rw [afterUnits, htake, Nat.add_right_comm, Nat.add_mul (n + 2), Nat.one_mul]
      exact Nat.add_le_add ih hlength

end Scan

end Polyglot
