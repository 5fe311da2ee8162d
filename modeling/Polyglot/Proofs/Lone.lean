-- SUMMARY: A fragment that is alone in its scope is neither stitched nor merged.
import Polyglot.Proofs.Assembly

/-!
# Fragments that are alone in their scope

Only fragments of one scope are ever joined. So a fragment that shares its scope with no
other goes through a scan with all of its text, whatever stands around it
(`Fragment.LeavesLone.under_eq`).
-/

namespace Polyglot

namespace Fragment

variable {k : Scope} {fs gs : List Fragment}

/-- What the fragments of a scope hold, and whether error recovery made them. -/
def under (k : Scope) (fs : List Fragment) : List (List Char × Bool) :=
  (fs.filter (·.scope = k)).map fun f => (f.content, f.degraded)

@[simp] theorem under_nil : under k [] = [] := rfl

theorem under_append : under k (fs ++ gs) = under k fs ++ under k gs := by
  simp [under]

theorem under_cons (f : Fragment) (fs : List Fragment) :
    under k (f :: fs) = under k [f] ++ under k fs := by
  rw [← under_append, List.singleton_append]

theorem under_reverse (h : (under k fs).length ≤ 1) : under k fs.reverse = under k fs := by
  have hreverse : under k fs.reverse = (under k fs).reverse := by simp [under]
  rw [hreverse]
  cases hunder : under k fs with
  | nil => rfl
  | cons x more =>
    rw [hunder] at h
    obtain rfl : more = [] := by simpa using h
    rfl

theorem under_eq_nil_iff : under k fs = [] ↔ ∀ f ∈ fs, f.scope ≠ k := by
  simp [under, List.filter_eq_nil_iff]

theorem under_singleton {f : Fragment} (h : f.scope = k) :
    under k [f] = [(f.content, f.degraded)] := by
  simp [under, h]

/-- A change that leaves scope and text alone. -/
structure KeepsText (φ : Fragment → Fragment) : Prop where
  scope : ∀ f, (φ f).scope = f.scope
  content : ∀ f, (φ f).content = f.content
  degraded : ∀ f, (φ f).degraded = f.degraded

theorem KeepsText.under_map {φ : Fragment → Fragment} (h : KeepsText φ) (fs : List Fragment) :
    under k (fs.map φ) = under k fs := by
  simp [under, List.filter_map, Function.comp_def, h.scope, h.content, h.degraded]

theorem KeepsText.comp {φ ψ : Fragment → Fragment} (h : KeepsText φ) (k : KeepsText ψ) :
    KeepsText fun f => φ (ψ f) :=
  ⟨fun f => (h.scope _).trans (k.scope f), fun f => (h.content _).trans (k.content f),
    fun f => (h.degraded _).trans (k.degraded f)⟩

theorem keepsText_unnumbered : KeepsText unnumbered :=
  ⟨fun _ => rfl, fun _ => rfl, fun _ => rfl⟩

theorem keepsText_classify : KeepsText classify := by
  constructor <;> rintro ⟨⟨context, nesting, parents, scope⟩, id, content, start, stop, features,
    literals, degraded⟩ <;> cases context <;> rfl

/-! ## Alone in a scope -/

/-- An operation on fragments that leaves those alone that are alone in their scope. -/
structure LeavesLone (Φ : List Fragment → List Fragment) : Prop where
  none : ∀ {k fs}, (∀ f ∈ fs, f.scope ≠ k) → ∀ f ∈ Φ fs, f.scope ≠ k
  lone : ∀ {before behind : List Fragment} {g : Fragment},
    (∀ f ∈ before, f.scope ≠ g.scope) → (∀ f ∈ behind, f.scope ≠ g.scope) →
      ∃ g', Φ (before ++ g :: behind) = Φ before ++ g' :: Φ behind ∧
        under g.scope [g'] = under g.scope [g]

theorem LeavesLone.under_eq {Φ : List Fragment → List Fragment} (hΦ : LeavesLone Φ)
    (h : (under k fs).length ≤ 1) : under k (Φ fs) = under k fs := by
  by_cases hnone : ∀ f ∈ fs, f.scope ≠ k
  · rw [under_eq_nil_iff.2 hnone, under_eq_nil_iff.2 (hΦ.none hnone)]
  · obtain ⟨g, hg, rfl⟩ : ∃ g ∈ fs, g.scope = k := by simpa using hnone
    obtain ⟨before, behind, rfl⟩ := List.append_of_mem hg
    rw [under_append, under_cons, under_singleton rfl] at h
    have hlength : (under g.scope before).length = 0 ∧ (under g.scope behind).length = 0 := by
      simp only [List.length_append, List.length_singleton] at h
      omega
    have hbefore := under_eq_nil_iff.1 (List.length_eq_zero_iff.1 hlength.1)
    have hbehind := under_eq_nil_iff.1 (List.length_eq_zero_iff.1 hlength.2)
    obtain ⟨g', hsplit, hsame⟩ := hΦ.lone hbefore hbehind
    rw [hsplit, under_append, under_append, under_cons g', under_cons g, hsame,
      under_eq_nil_iff.2 (hΦ.none hbefore), under_eq_nil_iff.2 (hΦ.none hbehind),
      under_eq_nil_iff.2 hbefore, under_eq_nil_iff.2 hbehind]

theorem apart_of_scope {f g : Fragment} (h : f.scope ≠ g.scope) : f.Apart g :=
  fun hsame => h hsame.1

theorem stitchAll_leavesLone (window : Nat) : LeavesLone (stitchAll window) where
  none := by
    intro k fs h
    refine stitchAll_forall (fun f g hfg hf => ?_) h
    rwa [← hfg.1]
  lone := by
    intro before behind g hbefore hbehind
    have hkept : ∀ f ∈ stitchAll window before, f.scope ≠ g.scope := by
      refine stitchAll_forall (fun f f' hkin hf => ?_) hbefore
      rwa [← hkin.1]
    have hfirst : stitchAll window (before ++ g :: behind) =
        stitchAll window before ++ stitchAll window (g :: behind) := by
      refine stitchAll_append fun f hf g' hg' => ?_
      obtain rfl : g = g' := by simpa using hg'
      exact precedes_of_apart (apart_of_scope (hkept f (List.mem_of_getLast? hf)))
    have hsecond : stitchAll window ([g] ++ behind) =
        stitchAll window [g] ++ stitchAll window behind := by
      refine stitchAll_append fun f hf g' hg' => ?_
      obtain rfl : g = f := by simpa [stitchAll, stitchNext] using hf
      exact precedes_of_apart (apart_of_scope (hbehind g' (List.mem_of_head? hg')).symm)
    exact ⟨g, by rw [hfirst, ← List.singleton_append, hsecond]; rfl, rfl⟩

theorem joined_leavesLone :
    LeavesLone fun fs => (fs.splitBy mergeable).filterMap joined? where
  none := by
    intro k fs h f hf
    obtain ⟨run, hrun, hjoined⟩ := List.mem_filterMap.1 hf
    cases run with
    | nil => cases hjoined
    | cons g more =>
      cases hjoined
      refine h g ?_
      rw [← List.flatten_splitBy mergeable fs]
      exact List.mem_flatten.2 ⟨_, hrun, List.mem_cons_self⟩
  lone := by
    intro before behind g hbefore hbehind
    have hfirst : (before ++ g :: behind).splitBy mergeable =
        before.splitBy mergeable ++ (g :: behind).splitBy mergeable := by
      refine List.splitBy_append fun f hf g' hg' => ?_
      obtain rfl : g = g' := by simpa using hg'
      exact mergeable_of_apart (apart_of_scope (hbefore f (List.mem_of_getLast? hf)))
    have hsecond : ([g] ++ behind).splitBy mergeable =
        [g].splitBy mergeable ++ behind.splitBy mergeable := by
      refine List.splitBy_append fun f hf g' hg' => ?_
      obtain rfl : g = f := by simpa using hf
      exact mergeable_of_apart (apart_of_scope (hbehind g' (List.mem_of_head? hg')).symm)
    have hrun : [g].splitBy mergeable = [[g]] := rfl
    refine ⟨g.unnumbered, ?_, keepsText_unnumbered.under_map [g]⟩
    rw [hfirst, ← List.singleton_append, hsecond, hrun, List.filterMap_append,
      List.singleton_append, List.filterMap_cons_some (joined?_singleton g)]

theorem under_aggregate (h : (under k fs).length ≤ 1) (issued : Nat) :
    under k (aggregate issued fs).1 = under k fs := by
  rw [← keepsText_unnumbered.under_map, aggregate_unnumbered]
  exact joined_leavesLone.under_eq h

end Fragment

end Polyglot
