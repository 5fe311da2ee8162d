-- SUMMARY: Merging divides fragments into maximal runs, as one pass that grows the last one does.
import Polyglot.Proofs.Feature
import Polyglot.Proofs.Neighbour

/-!
# Maximal runs

`mergePass` goes over a list of fragments once, and the last fragment that it has kept takes in
the next one if the two may be merged. So each fragment is compared with one that has grown: it
stops elsewhere and has more features. But its target is that of every fragment it has taken in
(`target_foldl_merge`), so the pass makes what `aggregate` makes of the maximal runs of the list
(`mergePass_eq_aggregate`), and there is one division into maximal runs (`isGrouping_iff`).
-/

namespace Polyglot

/-! ## The text between two offsets -/

/-- The text of a document between two offsets, if they are in order and each of them is where a
character begins or the document ends. -/
def slice? (source : List Char) (a b : Nat) : Option (List Char) :=
  let before := takeBytes a source
  let upTo := takeBytes b source
  if a ≤ b ∧ byteLength before = a ∧ byteLength upTo = b then some (upTo.drop before.length)
  else none

variable {source text more : List Char} {a b c : Nat}

theorem takeBytes_byteLength (text more : List Char) :
    takeBytes (byteLength text) (text ++ more) = text := by
  rw [takeBytes, splitBytes_byteLength]

theorem slice?_eq_some_iff : slice? source a b = some text ↔
    ∃ before after, source = before ++ text ++ after ∧ byteLength before = a ∧
      byteLength (before ++ text) = b := by
  constructor
  · intro h
    simp only [slice?, Option.ite_none_right_eq_some, Option.some.injEq] at h
    obtain ⟨⟨hle, ha, hb⟩, htext⟩ := h
    have hwithin : takeBytes a source ++ text = takeBytes b source := by
      rw [← htext]
      exact List.prefix_iff_eq_append.1 (takeBytes_mono hle source)
    refine ⟨takeBytes a source, (splitBytes b source).2, ?_, ha, by rw [hwithin, hb]⟩
    rw [hwithin]
    exact (splitBytes_append b source).symm
  · rintro ⟨before, after, rfl, rfl, rfl⟩
    have hupTo : takeBytes (byteLength (before ++ text)) (before ++ text ++ after) =
        before ++ text := takeBytes_byteLength _ after
    have hbefore : takeBytes (byteLength before) (before ++ text ++ after) = before := by
      rw [List.append_assoc, takeBytes_byteLength]
    simp only [slice?, hupTo, hbefore]
    simp

/-- What lies between the first and the last of three offsets. -/
theorem slice?_append (h : slice? source a b = some text) (k : slice? source b c = some more) :
    slice? source a c = some (text ++ more) := by
  rw [slice?_eq_some_iff] at h k ⊢
  obtain ⟨before, after, hsource, ha, hb⟩ := h
  obtain ⟨before', after', hsource', hb', hc⟩ := k
  have hsame : before' = before ++ text := by
    rw [← takeBytes_byteLength before' (more ++ after'), ← List.append_assoc, ← hsource', hb',
      ← hb, hsource, takeBytes_byteLength]
  subst hsame
  refine ⟨before, after', ?_, ha, ?_⟩
  · rw [hsource', List.append_assoc before]
  · rw [← List.append_assoc, hc]

theorem Features.isExtension_union (f g : Features) :
    (f.union g).isExtension = (f.isExtension || g.isExtension) := by
  rw [Bool.eq_iff_iff, Bool.or_eq_true, isExtension_iff, isExtension_iff, isExtension_iff]
  simp only [has_union, Bool.or_eq_true, exists_or]

namespace Fragment

/-- The content is the text of the document that the fragment spans. -/
def IsCutFrom (source : List Char) (f : Fragment) : Prop :=
  slice? source f.start.offset f.stop.offset = some f.content

instance (source : List Char) (f : Fragment) : Decidable (f.IsCutFrom source) :=
  inferInstanceAs (Decidable (_ = _))

/-! ## One pass -/

/-- The fragment with the next one taken in. What it spans is read from the document again. -/
def absorb (source : List Char) (f g : Fragment) : Fragment :=
  { f with
    content := (slice? source f.start.offset g.stop.offset).getD f.content
    stop := g.stop
    features := f.features.union g.features
    literals := f.literals ++ g.literals }

end Fragment

/-- A pass under way. -/
structure Merging where
  /-- The fragments that it has kept, last one first. -/
  done : List Fragment
  /-- The last of them has taken in another one. -/
  merged : Bool
  issued : Nat

/-- The last fragment takes in the next one, and gets a number if it is the first one that it
takes in. Or the next one is kept as it is. -/
def Merging.next (source : List Char) (m : Merging) (g : Fragment) : Merging :=
  match m.done with
  | [] => ⟨[g], false, m.issued⟩
  | f :: done =>
    if f.mergeable g then
      if m.merged then ⟨f.absorb source g :: done, true, m.issued⟩
      else ⟨({ f with id := m.issued }).absorb source g :: done, true, m.issued + 1⟩
    else ⟨g :: f :: done, false, m.issued⟩

/-- The fragments kept, last one first, and how many numbers were given out. -/
def Merging.result (m : Merging) : List Fragment × Nat := (m.done, m.issued)

/-- Merge the fragments of a document in one pass. -/
def mergePass (source : List Char) (issued : Nat) (fs : List Fragment) : List Fragment × Nat :=
  let m := fs.foldl (Merging.next source) ⟨[], false, issued⟩
  (m.done.reverse, m.issued)

namespace Fragment

variable {f g k : Fragment} {fs run out : List Fragment} {runs : List (List Fragment)}

/-! ## A fragment that grows -/

/-- The target of a fragment depends on its context, and in local scripts on its features. -/
theorem target_eq_of_context (hcontext : f.context = g.context)
    (hfeatures : f.context = .scriptLocal → f.features.isExtension = g.features.isExtension) :
    f.target = g.target := by
  unfold target
  rw [← hcontext]
  cases hf : f.context with
  | scriptLocal => simp only [hfeatures hf]
  | _ => rfl

theorem context_of_mergeable (h : f.mergeable g) : f.context = g.context := by
  simp only [mergeable, precedes, Bool.and_eq_true, decide_eq_true_eq] at h
  exact h.1.1.1.2

theorem target_of_mergeable (h : f.mergeable g) : f.target = g.target := by
  simp only [mergeable, Bool.and_eq_true, decide_eq_true_eq] at h
  exact h.2

/-- The features of the two are an extension each, or neither's are. -/
theorem target_merge (h : f.mergeable g) : (f.merge g).target = f.target := by
  refine target_eq_of_context rfl fun hlocal => ?_
  have hlocal : f.context = .scriptLocal := hlocal
  have hsame : f.features.isExtension = g.features.isExtension := by
    have htarget := target_of_mergeable h
    unfold target at htarget
    rw [← context_of_mergeable h, hlocal] at htarget
    simp only at htarget
    split at htarget <;> split at htarget <;> simp_all
  rw [merge, Features.isExtension_union, ← hsame, Bool.or_self]

/-- What a fragment has taken in decides what it takes in next. -/
theorem mergeable_merge (h : f.mergeable g) (k : Fragment) :
    (f.merge g).mergeable k = g.mergeable k := by
  have hnext : f.precedes g := (Bool.and_eq_true _ _ ▸ h).1
  rw [mergeable, mergeable, precedes_merge hnext, target_merge h, target_of_mergeable h]

/-- A run as one is its first fragment with the others taken in one by one. -/
theorem mergeRun_eq_foldl (f : Fragment) (more : List Fragment) (id : FragmentId) :
    f.mergeRun more id = more.foldl merge { f with id := id } := by
  induction more generalizing f with
  | nil => simp [mergeRun]
  | cons g more ih =>
    have hgrown : f.mergeRun (g :: more) id = (f.merge g).mergeRun more id := by
      cases more <;> simp [mergeRun, merge, List.getLast?_cons]
    rw [hgrown, ih, List.foldl_cons]
    rfl

/-- The document holds what two neighbours span together. -/
theorem isCutFrom_merge (hf : f.IsCutFrom source) (hg : g.IsCutFrom source)
    (h : f.mergeable g) : (f.merge g).IsCutFrom source := by
  have hadjacent : f.stop.offset = g.start.offset := by
    simp only [mergeable, precedes, Bool.and_eq_true, decide_eq_true_eq] at h
    exact h.1.1.1.1.1
  exact slice?_append (hadjacent ▸ hf) hg

/-! ## Runs -/

/-- Fragments of a document, of which each may be merged with the next. -/
structure IsRun (source : List Char) (run : List Fragment) : Prop where
  chain : run.IsChain fun f g => f.mergeable g
  cut : ∀ f ∈ run, f.IsCutFrom source

theorem IsRun.mergeable (h : IsRun source (f :: g :: fs)) : f.mergeable g :=
  (List.isChain_cons_cons.1 h.chain).1

/-- The first fragment takes in the second. -/
theorem IsRun.grow (h : IsRun source (f :: g :: fs)) : IsRun source (f.merge g :: fs) where
  chain := by
    have hmore := List.isChain_cons.1 (List.isChain_cons_cons.1 h.chain).2
    refine List.isChain_cons.2 ⟨fun k hk => ?_, hmore.2⟩
    exact (mergeable_merge h.mergeable k).trans (hmore.1 k hk)
  cut x hx := by
    rcases List.mem_cons.1 hx with rfl | hx
    · exact isCutFrom_merge (h.cut f (by simp)) (h.cut g (by simp)) h.mergeable
    · exact h.cut x (by simp [hx])

/-- The first fragment gets a number. -/
theorem IsRun.renumber (h : IsRun source (f :: fs)) (id : FragmentId) :
    IsRun source ({ f with id := id } :: fs) where
  chain := List.isChain_cons.2 (List.isChain_cons.1 h.chain)
  cut x hx := by
    rcases List.mem_cons.1 hx with rfl | hx
    · exact h.cut f List.mem_cons_self
    · exact h.cut x (List.mem_cons_of_mem f hx)

theorem IsRun.absorb_eq_merge (h : IsRun source (f :: g :: fs)) :
    f.absorb source g = f.merge g := by
  have hspan : slice? source f.start.offset g.stop.offset = some (f.content ++ g.content) :=
    isCutFrom_merge (h.cut f (by simp)) (h.cut g (by simp)) h.mergeable
  rw [absorb, hspan]
  rfl

/-- The fragment stands for the run: what may be merged with the one may be with the other. -/
structure StandsFor (f : Fragment) (run : List Fragment) : Prop where
  before : ∀ g ∈ run.head?, ∀ k : Fragment, k.mergeable f = k.mergeable g
  behind : ∀ g ∈ run.getLast?, ∀ k : Fragment, f.mergeable k = g.mergeable k

theorem standsFor_singleton (f : Fragment) : f.StandsFor [f] := by
  constructor <;> simp

/-- The fragments of a run all have the target of what they are merged into. -/
theorem IsRun.target_eq (h : IsRun source (f :: fs)) :
    ∀ x ∈ f :: fs, x.target = (fs.foldl merge f).target := by
  induction fs generalizing f with
  | nil => simp
  | cons g fs ih =>
    have hgrown := ih h.grow
    have hfirst : f.target = (fs.foldl merge (f.merge g)).target :=
      (target_merge h.mergeable).symm.trans (hgrown _ List.mem_cons_self)
    intro x hx
    simp only [List.mem_cons] at hx
    rcases hx with rfl | rfl | hx
    · exact hfirst
    · exact (target_of_mergeable h.mergeable).symm.trans hfirst
    · exact hgrown x (List.mem_cons_of_mem _ hx)

/-- What a run is merged into stands for it. -/
theorem IsRun.standsFor (h : IsRun source (f :: fs)) : (fs.foldl merge f).StandsFor (f :: fs) := by
  induction fs generalizing f with
  | nil => exact standsFor_singleton f
  | cons g fs ih =>
    have hgrown := ih h.grow
    constructor
    · intro x hx k
      obtain rfl : f = x := by simpa using hx
      have hsame : k.mergeable (f.merge g) = k.mergeable f := by
        rw [Fragment.mergeable, Fragment.mergeable, target_merge h.mergeable]
        rfl
      exact (hgrown.before (f.merge g) rfl k).trans hsame
    · intro x hx k
      cases fs with
      | nil =>
        obtain rfl : g = x := by simpa using hx
        exact mergeable_merge h.mergeable k
      | cons e fs => exact hgrown.behind x (by simpa using hx) k

/-- The document holds what a run spans. -/
theorem IsRun.isCutFrom (h : IsRun source (f :: fs)) : (fs.foldl merge f).IsCutFrom source := by
  induction fs generalizing f with
  | nil => exact h.cut f List.mem_cons_self
  | cons g fs ih => exact ih h.grow

/-- What a run of several fragments becomes. -/
structure IsUnion (source : List Char) (run : List Fragment) (id : FragmentId) (g : Fragment) :
    Prop where
  id : g.id = id
  first : ∃ f ∈ run.head?, g.toFrame = f.toFrame ∧ g.start = f.start ∧ g.degraded = f.degraded
  last : ∃ f ∈ run.getLast?, g.stop = f.stop
  content : slice? source g.start.offset g.stop.offset = some g.content
  features : ∀ m, g.features.has m ↔ ∃ f ∈ run, f.features.has m
  literals : g.literals = run.flatMap literals
  target : ∀ f ∈ run, f.target = g.target

/-- What a run becomes: one fragment stays as it is, several become one under the next number. -/
inductive Outcome (source : List Char) (issued : Nat) :
    List Fragment → Fragment → Nat → Prop where
  | lone (f : Fragment) : Outcome source issued [f] f issued
  | union {run : List Fragment} {g : Fragment} (several : 2 ≤ run.length)
      (union : IsUnion source run issued g) : Outcome source issued run g (issued + 1)

theorem IsRun.isUnion (h : IsRun source (f :: fs)) (id : FragmentId) :
    IsUnion source (f :: fs) id (f.mergeRun fs id) where
  id := rfl
  first := ⟨f, rfl, rfl, rfl, rfl⟩
  last := ⟨fs.getLastD f, by simp [List.getLast?_cons], rfl⟩
  content := by
    rw [mergeRun_eq_foldl]
    exact (h.renumber id).isCutFrom
  features m := Scan.joined?_features (f := f.mergeRun fs 0) rfl m
  literals := literals_mergeRun f fs id
  target x hx := by
    have htarget := (h.renumber id).target_eq
    rw [← mergeRun_eq_foldl] at htarget
    rcases List.mem_cons.1 hx with rfl | hx
    · exact htarget { x with id := id } List.mem_cons_self
    · exact htarget x (List.mem_cons_of_mem _ hx)

/-- A run is replaced by a fragment that stands for it. -/
theorem IsRun.exists_addRun (h : IsRun source run) (hne : run ≠ []) (n : Nat) :
    ∃ g m, Outcome source n run g m ∧ g.StandsFor run ∧ g.IsCutFrom source ∧
      ∀ done, addRun (done, n) run = (g :: done, m) := by
  match run with
  | [] => exact absurd rfl hne
  | [f] => exact ⟨f, n, .lone f, standsFor_singleton f, h.cut f (by simp), fun _ => rfl⟩
  | f :: g :: fs =>
    have hunion := h.isUnion n
    have hstands := (h.renumber n).standsFor
    rw [← mergeRun_eq_foldl] at hstands
    refine ⟨_, n + 1, .union (by simp) hunion, ⟨fun x hx k => ?_, fun x hx k => ?_⟩,
      hunion.content, fun _ => rfl⟩
    · obtain rfl : f = x := by simpa using hx
      exact hstands.before { f with id := n } rfl k
    · exact hstands.behind x (by simpa using hx) k

/-! ## The pass over a run -/

/-- Inside of a run the last fragment takes in the others. -/
theorem IsRun.foldl_next (h : IsRun source (f :: fs)) (done : List Fragment) (n : Nat) :
    fs.foldl (Merging.next source) ⟨f :: done, true, n⟩ =
      ⟨fs.foldl merge f :: done, true, n⟩ := by
  induction fs generalizing f with
  | nil => rfl
  | cons g fs ih =>
    have hnext : Merging.next source ⟨f :: done, true, n⟩ g = ⟨f.merge g :: done, true, n⟩ := by
      simp [Merging.next, h.mergeable, h.absorb_eq_merge]
    rw [List.foldl_cons, hnext, ih h.grow, List.foldl_cons]

/-- Over a run that the last fragment does not take in, the pass does what is done with the run
as a whole. -/
theorem IsRun.foldl_next_eq_addRun (h : IsRun source run) (hne : run ≠ []) {m : Merging}
    (hfirst : ∀ f ∈ m.done.head?, ∀ g ∈ run.head?, f.mergeable g = false) :
    (run.foldl (Merging.next source) m).result = addRun m.result run := by
  obtain ⟨f, fs, rfl⟩ := List.exists_cons_of_ne_nil hne
  have hkeep : m.next source f = ⟨f :: m.done, false, m.issued⟩ := by
    unfold Merging.next
    cases hdone : m.done with
    | nil => rfl
    | cons t done =>
      have ht : t.mergeable f = false := hfirst t (by simp [hdone]) f rfl
      simp [ht]
  rw [List.foldl_cons, hkeep]
  cases fs with
  | nil => rfl
  | cons g fs =>
    have hnumbered := h.renumber m.issued
    have hnext : Merging.next source ⟨f :: m.done, false, m.issued⟩ g =
        ⟨({ f with id := m.issued } : Fragment).merge g :: m.done, true, m.issued + 1⟩ := by
      simp [Merging.next, h.mergeable, hnumbered.absorb_eq_merge]
    have hrun : addRun m.result (f :: g :: fs) =
        (f.mergeRun (g :: fs) m.issued :: m.done, m.issued + 1) := rfl
    rw [List.foldl_cons, hnext, hnumbered.grow.foldl_next, hrun, mergeRun_eq_foldl]
    rfl

/-! ## Divisions -/

/-- The two fragments lie side by side in one scope and context, they are bound for one target,
and error recovery made neither. -/
def Adjoins (f g : Fragment) : Prop :=
  f.stop.offset = g.start.offset ∧ f.scope = g.scope ∧ f.context = g.context ∧
    f.target = g.target ∧ f.degraded = false ∧ g.degraded = false

theorem adjoins_iff : f.Adjoins g ↔ f.mergeable g = true := by
  simp only [Adjoins, Fragment.mergeable, precedes, Bool.and_eq_true, decide_eq_true_eq,
    Bool.not_eq_true']
  tauto

/-- The lists are the maximal runs of fragments that adjoin each other. -/
structure IsGrouping (fs : List Fragment) (runs : List (List Fragment)) : Prop where
  flatten : runs.flatten = fs
  nonempty : ∀ run ∈ runs, run ≠ []
  within : ∀ run ∈ runs, run.IsChain Adjoins
  maximal : runs.IsChain fun a b => ∀ f ∈ a.getLast?, ∀ g ∈ b.head?, ¬ f.Adjoins g

/-- A list has one division into maximal runs. -/
theorem isGrouping_iff : IsGrouping fs runs ↔ runs = fs.splitBy mergeable := by
  have hends : ∀ {a b : List Fragment}, a ≠ [] → b ≠ [] →
      ((∀ f ∈ a.getLast?, ∀ g ∈ b.head?, ¬ f.Adjoins g) ↔
        ∃ ha hb, (a.getLast ha).mergeable (b.head hb) = false) := by
    intro a b ha hb
    simp [List.getLast?_eq_some_getLast ha, List.head?_eq_some_head hb, adjoins_iff, ha, hb]
  rw [eq_comm, List.splitBy_eq_iff]
  constructor
  · rintro ⟨hflatten, hnonempty, hwithin, hmaximal⟩
    refine ⟨hflatten.symm, fun h => hnonempty [] h rfl, fun run hrun => ?_, ?_⟩
    · exact (hwithin run hrun).imp fun f g h => adjoins_iff.1 h
    · exact hmaximal.imp_of_mem_imp fun a b ha hb h =>
        (hends (hnonempty a ha) (hnonempty b hb)).1 h
  · rintro ⟨hflatten, hnonempty, hwithin, hmaximal⟩
    refine ⟨hflatten.symm, fun run hrun h => hnonempty (h ▸ hrun), fun run hrun => ?_, ?_⟩
    · exact (hwithin run hrun).imp fun f g h => adjoins_iff.2 h
    · refine hmaximal.imp ?_
      rintro a b ⟨ha, hb, h⟩
      exact (hends ha hb).2 ⟨ha, hb, h⟩

/-- What becomes of the runs, one by one. -/
inductive Merges (source : List Char) :
    Nat → List (List Fragment) → List Fragment → Nat → Prop where
  | nil (n : Nat) : Merges source n [] [] n
  | cons {n m k : Nat} {run : List Fragment} {runs : List (List Fragment)} {g : Fragment}
      {out : List Fragment} (first : Outcome source n run g m) (more : Merges source m runs out k) :
      Merges source n (run :: runs) (g :: out) k

/-- A number is given out for each run of several fragments. -/
theorem Merges.issued_eq {n m : Nat} (h : Merges source n runs out m) :
    m = n + runs.countP (2 ≤ ·.length) := by
  induction h with
  | nil => rfl
  | cons first more ih =>
    cases first with
    | lone f => simp [ih]
    | union several => simp [ih, several]; omega

/-- The maximal runs of a document's fragments, one by one. -/
structure AreRuns (source : List Char) (runs : List (List Fragment)) : Prop where
  each : ∀ run ∈ runs, run ≠ [] ∧ IsRun source run
  maximal : runs.IsChain fun a b => ∀ f ∈ a.getLast?, ∀ g ∈ b.head?, f.mergeable g = false

theorem AreRuns.tail (h : AreRuns source (run :: runs)) : AreRuns source runs :=
  ⟨fun x hx => h.each x (List.mem_cons_of_mem run hx), h.maximal.tail⟩

theorem areRuns_splitBy (hcut : ∀ f ∈ fs, f.IsCutFrom source) :
    AreRuns source (fs.splitBy Fragment.mergeable) := by
  have h := isGrouping_iff.2 (rfl : fs.splitBy Fragment.mergeable = _)
  refine ⟨fun run hrun => ⟨h.nonempty run hrun, ?_, fun f hf => hcut f ?_⟩, ?_⟩
  · exact (h.within run hrun).imp fun f g hfg => adjoins_iff.1 hfg
  · rw [← h.flatten]
    exact List.mem_flatten.2 ⟨run, hrun, hf⟩
  · exact h.maximal.imp fun a b hab f hf g hg => by
      simpa [adjoins_iff] using hab f hf g hg

/-- Over maximal runs, the pass does what is done with each of them. -/
theorem AreRuns.foldl_next (h : AreRuns source runs) {m : Merging}
    (hfirst : ∀ f ∈ m.done.head?, ∀ run ∈ runs.head?, ∀ g ∈ run.head?, f.mergeable g = false) :
    (runs.flatten.foldl (Merging.next source) m).result = runs.foldl addRun m.result := by
  induction runs generalizing m with
  | nil => rfl
  | cons run runs ih =>
    obtain ⟨hne, hrun⟩ := h.each run List.mem_cons_self
    have hadd := hrun.foldl_next_eq_addRun hne fun f hf => hfirst f hf run rfl
    obtain ⟨x, n, -, hstands, -, hx⟩ := hrun.exists_addRun hne m.issued
    have hdone : (run.foldl (Merging.next source) m).done = x :: m.done :=
      congrArg Prod.fst (hadd.trans (hx m.done))
    rw [List.flatten_cons, List.foldl_append, List.foldl_cons, ← hadd]
    refine ih h.tail fun f hf next hnext g hg => ?_
    obtain rfl : x = f := by simpa [hdone] using hf
    obtain ⟨last, hlast⟩ : ∃ last, last ∈ run.getLast? :=
      ⟨_, List.getLast?_eq_some_getLast hne⟩
    rw [hstands.behind last hlast]
    exact h.maximal.rel_head? hnext last hlast g hg

/-- What becomes of maximal runs cannot be merged further. -/
theorem AreRuns.exists_merges (h : AreRuns source runs) (n : Nat) :
    ∃ out m, Merges source n runs out m ∧ (∀ g ∈ out, g.IsCutFrom source) ∧
      (out.IsChain fun f g => f.mergeable g = false) ∧
      (∀ g ∈ out.head?, ∃ run ∈ runs.head?, g.StandsFor run) ∧
      ∀ done, runs.foldl addRun (done, n) = (out.reverse ++ done, m) := by
  induction runs generalizing n with
  | nil => exact ⟨[], n, .nil n, by simp, .nil, by simp, fun _ => rfl⟩
  | cons run runs ih =>
    obtain ⟨hne, hrun⟩ := h.each run List.mem_cons_self
    obtain ⟨x, k, houtcome, hstands, hcut, hx⟩ := hrun.exists_addRun hne n
    obtain ⟨out, m, hmerges, hcuts, hchain, hhead, hout⟩ := ih h.tail k
    refine ⟨x :: out, m, .cons houtcome hmerges, ?_, ?_, ?_, fun done => ?_⟩
    · simpa using ⟨hcut, hcuts⟩
    · refine List.isChain_cons.2 ⟨fun g hg => ?_, hchain⟩
      obtain ⟨next, hnext, hg⟩ := hhead g hg
      obtain ⟨last, hlast⟩ : ∃ last, last ∈ run.getLast? :=
        ⟨_, List.getLast?_eq_some_getLast hne⟩
      obtain ⟨first, hfirst⟩ : ∃ first, first ∈ next.head? :=
        ⟨_, List.head?_eq_some_head (h.tail.each next (List.mem_of_mem_head? hnext)).1⟩
      rw [hstands.behind last hlast, hg.before first hfirst]
      exact h.maximal.rel_head? hnext last hlast first hfirst
    · intro g hg
      obtain rfl : x = g := by simpa using hg
      exact ⟨run, rfl, hstands⟩
    · rw [List.foldl_cons, hx, hout, List.reverse_cons, List.append_assoc]
      rfl

/-- The pass does what is done with the maximal runs. -/
theorem mergePass_eq_aggregate (hcut : ∀ f ∈ fs, f.IsCutFrom source) (issued : Nat) :
    mergePass source issued fs = aggregate issued fs := by
  have hpass := (areRuns_splitBy hcut).foldl_next (m := ⟨[], false, issued⟩) (by simp)
  have hstart : (⟨[], false, issued⟩ : Merging).result = ([], issued) := rfl
  rw [List.flatten_splitBy, hstart] at hpass
  unfold mergePass aggregate
  rw [← hpass]
  rfl

/-- Of the fragments of a document the pass makes one for each maximal run, in order: a fragment
on its own stays as it is, and several become their union under a number of its own. A second
pass changes nothing. Both hold of `aggregate`, which does the same. -/
theorem mergePass_groups (hcut : ∀ f ∈ fs, f.IsCutFrom source) (issued : Nat) :
    ∃ runs out n, mergePass source issued fs = (out, n) ∧ aggregate issued fs = (out, n) ∧
      (∀ rs, IsGrouping fs rs ↔ rs = runs) ∧ Merges source issued runs out n ∧
      n = issued + runs.countP (2 ≤ ·.length) ∧
      ∀ m, mergePass source m out = (out, m) ∧ aggregate m out = (out, m) := by
  obtain ⟨out, n, hmerges, hcuts, hchain, -, hout⟩ := (areRuns_splitBy hcut).exists_merges issued
  have haggregate : aggregate issued fs = (out, n) := by simp [aggregate, hout]
  have hagain : ∀ m, aggregate m out = (out, m) := aggregate_of_unmergeable hchain
  refine ⟨_, out, n, (mergePass_eq_aggregate hcut issued).trans haggregate, haggregate,
    fun _ => isGrouping_iff, hmerges, hmerges.issued_eq, fun m => ⟨?_, hagain m⟩⟩
  exact (mergePass_eq_aggregate hcuts m).trans (hagain m)

/-- Two statements become one, and the call behind them, which is bound for the other compiler,
stays apart. -/
theorem mergePass_groups_statements :
    let frame : Frame := ⟨.scriptLocal, 1, [.global], 1⟩
    let source := "a();b();listen();".toList
    let a := frame.fragment false 0 "a();".toList ⟨0, 1, 1⟩ ⟨4, 1, 5⟩
    let b := frame.fragment false 1 "b();".toList ⟨4, 1, 5⟩ ⟨8, 1, 9⟩
    let c : Fragment :=
      { frame.fragment false 2 "listen();".toList ⟨8, 1, 9⟩ ⟨17, 1, 18⟩ with
        features := .ofList [.listenCall] }
    let out := [{ a.merge b with id := 3 }, c]
    (∀ f ∈ [a, b, c], f.IsCutFrom source) ∧ mergePass source 3 [a, b, c] = (out, 4) ∧
      ∀ m, mergePass source m out = (out, m) := by
  intro frame source a b c out
  have hcut : ∀ f ∈ [a, b, c], f.IsCutFrom source := by decide +kernel
  have hpass : mergePass source 3 [a, b, c] = (out, 4) := by decide +kernel
  obtain ⟨_, out', n, hout, -, -, -, -, hagain⟩ := mergePass_groups hcut 3
  obtain ⟨rfl, rfl⟩ : out' = out ∧ n = 4 := Prod.mk.inj (hout.symm.trans hpass)
  exact ⟨hcut, hpass, fun m => (hagain m).1⟩

end Fragment

end Polyglot
