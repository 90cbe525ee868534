import Refuter.Proofs.Heap.Operations

/-!
# Operations without faults on a heap store

A store faults only on a choice with fewer than two candidates. Merging and narrowing never make
one, so on a store without such choices no operation faults: it refutes the store, or the store it
leaves is of the same kind.
-/

namespace Refuter

open StoreM

/-- Merging and narrowing make well-formed pointers. -/
theorem Pointer.law_isWellFormed :
    Law (fun (_ : Timeless) _ => True) (fun _ => True) fun _ p => p.isWellFormed = true where
  mono _ _ _ := le_refl _
  candidates _ _ := trivial
  known _ := rfl
  make {w _} _ _ := ⟨w, le_refl w, trivial, fun _ hp _ => isWellFormed_of_ofCandidates hp⟩

/-- Both ends are well-formed. -/
structure Edge.WellFormed (e : Edge) : Prop where
  source : e.source.isWellFormed = true
  sink : e.sink.isWellFormed = true

theorem Edge.wellFormed_iff_within {e : Edge} :
    e.WellFormed ↔ e.Within fun p => p.isWellFormed = true := by
  refine ⟨fun h => ⟨.inr h.source, h.sink⟩, fun h => ⟨?_, h.sink⟩⟩
  obtain hknown | hsource := h.source
  · cases hp : e.source with
    | known x => rfl
    | choice i cs =>
      rw [hp] at hknown
      cases hknown
  · exact hsource

/-- All owed edges are well-formed. -/
def HeapStore.WellFormed (s : HeapStore) : Prop := ∀ e ∈ s.owed, e.WellFormed

/-- From a well-formed store no operation faults on a choice, and all leave a well-formed one. -/
theorem HeapStore.law_wellFormed :
    Law (fun (_ : Timeless) _ => True) (fun _ s => s.WellFormed) IsRefutation (fun _ => True)
      fun _ p => p.isWellFormed = true where
  pointers := Pointer.law_isWellFormed
  mono _ _ _ := le_refl _
  notes _ _ _ _ _ := trivial
  owed hs he := Edge.wellFormed_iff_within.1 (hs _ he)
  owe hs he _ d hd := by
    obtain rfl | hd := SortedSet.mem_insert.1 hd
    · exact Edge.wellFormed_iff_within.2 he
    · exact hs d hd
  keep _ hs e he := hs e (SortedSet.mem_filter.1 he).1
  rename hs _ _ hq e he := by
    obtain ⟨d, hd, rfl⟩ := SortedSet.mem_map.1 he
    have hd := Edge.wellFormed_iff_within.1 (hs d hd)
    exact Edge.wellFormed_iff_within.2 (hd.rename (.inr hq) fun _ => hq)
  log hs _ := hs
  forget _ hs := hs
  refuted hs := hs
  frame _ _ := trivial
  malformed hp hsize := absurd hsize (Nat.not_lt.2 (of_decide_eq_true hp))
  refutes r := ⟨r, rfl⟩

end Refuter
