import Refuter.Proofs.Heap.Substitution
import Refuter.Proofs.Path.Bases
import Refuter.Proofs.Query.Operations

/-!
# Settling

When a query is settled, the renames of the heap store reach the path store and some equations
move the other way.
-/

namespace Refuter

open StoreM

/-! ## 1. Promoted equations -/

namespace PathM

/-- The equations are taken out and the other constraints stay. -/
theorem results_takeSiteEqualities {f : Frame PathStore} {H : Halt → Frame PathStore → Prop} :
    Results takeSiteEqualities f (fun taken g =>
      f.session.Notes g.session ∧ taken = f.store.constraints.filterMap siteEquality? ∧
        g.store.feasible = f.store.feasible ∧
        g.store.constraints = f.store.constraints.filter (siteEquality? · |>.isNone)) H := by
  unfold takeSiteEqualities
  simp only [results_bind, results_store]
  refine results_debugAll fun session hnotes => ?_
  split
  · exact ⟨hnotes, rfl, rfl, rfl⟩
  · rename_i hnone
    refine ⟨hnotes, rfl, rfl, (List.filter_eq_self.2 fun c hc => ?_).symm⟩
    -- nothing was taken, so no constraint is such an equation
    rw [Option.isNone_iff_eq_none, ← Option.not_isSome_iff_eq_none]
    intro hsome
    refine hnone (Bool.not_eq_true' _ ▸ Bool.eq_false_iff.2 fun hempty => ?_)
    have hmem : c ∈ f.store.constraints.filter (siteEquality? · |>.isSome) :=
      List.mem_filter.2 ⟨hc, hsome⟩
    rw [List.isEmpty_iff.1 hempty] at hmem
    cases hmem

end PathM

namespace QueryM

variable {f : Frame Query} {G : Pointer → Prop}

/-! ## 2. Replaying renames -/

/-- Replaying renames to pointers with `G` brings in no others. -/
theorem results_replay_within {renames : List (Pointer × Pointer)} (hs : f.store.path.Within G)
    (hr : ∀ r ∈ renames, G r.2) :
    Results (replay renames) f
      (fun _ g => g.store.heap = f.store.heap ∧ g.store.path.Within G) fun _ _ => True := by
  induction renames generalizing f with
  | nil => exact ⟨rfl, hs⟩
  | cons r rest ih =>
    unfold replay onPath
    simp only [results_bind, results_onPart]
    refine (PathM.results_rename_within (f := ⟨f.store.path, f.session⟩) hs
      (hr r List.mem_cons_self)).mono (fun _ g hg => ?_) fun _ _ h => h
    exact ih hg fun t ht => hr t (List.mem_cons_of_mem _ ht)

theorem results_replayPending_within (hs : f.store.path.Within G)
    (hr : ∀ r ∈ f.store.heap.renames, G r.2) :
    Results replayPending f
      (fun _ g => g.store.heap = { f.store.heap with renames := [] } ∧ g.store.path.Within G)
      fun _ _ => True := by
  unfold replayPending
  rw [results_bind]
  exact results_replay_within hs hr

/-- A path store without choices does not see renames of choices. -/
theorem ends_replay_of_known {renames : List (Pointer × Pointer)} {Q : Unit → Frame Query → Prop}
    (hs : f.store.path.Within fun p => p.isChoice = false)
    (hr : ∀ r ∈ renames, r.1.isChoice = true) (hQ : Q () f) : Ends (replay renames) f Q := by
  induction renames with
  | nil => exact ends_pure.2 hQ
  | cons r rest ih =>
    have hrelevant : f.store.path.isRelevant r.1 = false := by
      refine decide_eq_false fun hmem => ?_
      obtain ⟨v, hv, hbase⟩ := PathStore.mem_pointers.1 hmem
      have hknown := hs v hv
      rw [hbase, hr r List.mem_cons_self] at hknown
      cases hknown
    unfold replay onPath PathM.rename
    simp only [ends_bind, ends_onPart, ends_store, hrelevant, Bool.not_false, if_true, ends_pure]
    exact ih fun t ht => hr t (List.mem_cons_of_mem _ ht)

theorem ends_replayPending_of_known {Q : Unit → Frame Query → Prop}
    (hs : f.store.path.Within fun p => p.isChoice = false)
    (hr : ∀ r ∈ f.store.heap.renames, r.1.isChoice = true)
    (hQ : Q () { f with store :=
      { f.store with heap := { f.store.heap with renames := [] } } }) :
    Ends replayPending f Q := by
  unfold replayPending onHeap HeapM.takeRenames
  simp only [ends_bind, ends_onPart, ends_store, ends_modifyStore, ends_pure]
  exact ends_replay_of_known hs hr hQ

/-- The test for a null conflict changes nothing. -/
theorem results_requireNoNullConflict {Q : Unit → Frame Query → Prop}
    {H : Halt → Frame Query → Prop} (hQ : f.store.nullConflict? = none → Q () f)
    (hH : ∀ p, f.store.nullConflict? = some p →
      H (.refuted (.nullConflict p)) { f with store := f.store.markRefuted }) :
    Results requireNoNullConflict f Q H := by
  unfold requireNoNullConflict
  rw [results_bind, results_store]
  cases hconflict : f.store.nullConflict? with
  | none => exact hQ hconflict
  | some p => exact hH p hconflict

end QueryM

end Refuter
