import Refuter.Proofs.Heap.Definition
import Refuter.Proofs.Query.Settling

/-!
# Definitions consume what is asked of a local

Before an instruction that defines a local, the local has some other value. So nothing that was
asked of it after the instruction may be asked before: neither store speaks of the local in any
case of the step. The heap store discharges the edge on the local or is refuted, and the path
store puts the defining value for the local. Settling brings the local back in neither: renames
lead to objects, and only equations that the path store still has are promoted.
-/

namespace Refuter

open StoreM

/-- Neither store speaks of the root `x`. -/
structure Query.Consumed (A : Location → Prop) (x : Location) (q : Query) : Prop where
  heap : q.heap.OffRoot A x
  path : q.path.Within (· ≠ .known x)

namespace QueryM

variable {A : Location → Prop} {x : Location} {f : Frame Query} {h : HeapGraph}

/-! ## 1. Settling -/

section Settling

variable (hx : ¬ A x)
include hx

theorem results_replay_consumed {renames : List (Pointer × Pointer)}
    (hq : f.store.Consumed A x) (hr : ∀ r ∈ renames, r.2.Over A) :
    Results (replay renames) f (fun _ g => g.store.Consumed A x) fun _ _ => True := by
  refine (results_replay_within hq.path fun r hr' =>
    Pointer.ne_known_of_over hx (hr r hr')).mono (fun _ g hg => ?_) fun _ _ h => h
  exact ⟨hg.1 ▸ hq.heap, hg.2⟩

theorem results_replayPending_consumed (hq : f.store.Consumed A x) :
    Results replayPending f (fun _ g => g.store.Consumed A x) fun _ _ => True := by
  refine (results_replayPending_within hq.path fun r hr =>
    Pointer.ne_known_of_over hx (hq.heap.renames r hr)).mono (fun _ g hg => ?_) fun _ _ h => h
  refine ⟨?_, hg.2⟩
  rw [hg.1]
  exact ⟨hq.heap.owed, fun r hr => by cases hr⟩

/-- Adding an edge to the heap store and replaying what it renames. -/
theorem results_addEdge_consumed {e : Edge} (hq : f.store.Consumed A x) (he : e.OffRoot A x) :
    Results (onHeap (HeapM.addEdge e)) f
      (fun caused g => g.store.Consumed A x ∧ ∀ r ∈ caused, r.2.Over A) fun _ _ => True := by
  unfold onHeap
  rw [results_onPart]
  exact (HeapM.results_addEdge_offRoot (f := ⟨f.store.heap, f.session⟩) hx hq.heap he).mono
    (fun _ g hg => ⟨⟨hg.1, hq.path⟩, hg.2⟩) fun _ _ h => h

theorem results_promote_consumed {base objects : Pointer} {field : Field}
    (hgraph : h.Within A) (hq : f.store.Consumed A x) (hframe : base.isFrame = true)
    (hbase : base ≠ .known x) (hobjects : objects.Over A) :
    Results (promote h (base, field, objects)) f (fun _ g => g.store.Consumed A x)
      fun _ _ => True := by
  unfold promote
  rw [results_bind, results_fresh]
  cases hb : Pointer.ofCandidates (h.ofPointer base) f.session.nextId with
  | mk o n =>
    cases o with
    | none => exact Results.onRefuted ⟨trivial, trivial⟩
    | some b =>
      have hover : b.Over A := Pointer.over_of_ofCandidates (fun y => hgraph.ofPointer hframe) hb
      have hroot : (Edge.root base b).OffRoot A x :=
        ⟨⟨.inl (Pointer.isChoice_eq_false_of_isFrame hframe), hover⟩, fun _ => hbase⟩
      simp only [results_bind]
      refine (results_addEdge_consumed (f := f.supply n) hx hq hroot).mono
        (fun caused g hg => ?_) fun _ _ h => h
      refine (results_replay_consumed hx hg.1 hg.2).mono (fun _ g' hg' => ?_) fun _ _ h => h
      have hfield : (Edge.ofField b field objects).OffRoot A x :=
        ⟨⟨.inr hover, hobjects⟩, fun hroot => by cases hroot⟩
      exact (results_addEdge_consumed hx hg' (hfield.renameAll hx hg.2)).mono
        (fun _ g'' hg'' => results_replay_consumed hx hg''.1 hg''.2) fun _ _ h => h

theorem results_promoteAll_consumed {equalities : List (Pointer × Field × Pointer)}
    (hgraph : h.Within A) (hq : f.store.Consumed A x)
    (he : ∀ e ∈ equalities, e.1.isFrame = true ∧ e.1 ≠ .known x ∧ e.2.2.Over A) :
    Results (promoteAll h equalities) f (fun _ g => g.store.Consumed A x) fun _ _ => True := by
  induction equalities generalizing f with
  | nil => exact hq
  | cons e rest ih =>
    obtain ⟨hframe, hbase, hobjects⟩ := he e List.mem_cons_self
    unfold promoteAll
    rw [results_bind]
    exact (results_promote_consumed hx hgraph hq hframe hbase hobjects).mono
      (fun _ g hg => ih hg fun d hd => he d (List.mem_cons_of_mem _ hd)) fun _ _ h => h

theorem results_settle_consumed (hsite : ∀ y : Location, y.isSite = true → A y)
    (hgraph : h.Within A) (hq : f.store.Consumed A x) :
    Results (settle h) f (fun _ g => g.store.Consumed A x) fun _ _ => True := by
  unfold settle onPath
  simp only [results_bind, results_onPart]
  refine (results_replayPending_consumed hx hq).mono (fun _ g hg => ?_) fun _ _ h => h
  -- the promoted equations are constraints of a store that does not mention `x`
  refine PathM.results_takeSiteEqualities.mono (fun taken g' hg' => ?_) fun _ _ h => h
  obtain ⟨-, rfl, -, hconstraints⟩ := hg'
  have hpath := PathStore.within_iff.1 hg.path
  have hrest : g'.store.Within (· ≠ .known x) := by
    refine PathStore.within_iff.2 fun c hc => hpath c ?_
    rw [hconstraints] at hc
    exact (List.mem_filter.1 hc).1
  refine (results_promoteAll_consumed (f := ⟨{ g.store with path := g'.store }, g'.session⟩) hx
    hgraph ⟨hg.heap, hrest⟩ fun e he => ?_).mono (fun _ g'' hg'' => ?_) fun _ _ h => h
  · obtain ⟨c, hc, he⟩ := List.mem_filterMap.1 he
    have hequates : c.Equates e.1 e.2.1 e.2.2 := PathM.siteEquality?_iff.1 he
    exact ⟨hequates.isFrame, hpath c hc _ hequates.mem_paths.1,
      fun y hy => hsite y (Pointer.isSite_iff.1 hequates.isSite y hy)⟩
  · refine (results_replayPending_consumed hx hg'').mono (fun _ g₃ hg₃ => ?_) fun _ _ h => h
    exact results_requireNoNullConflict (fun _ => hg₃) fun _ _ => trivial

end Settling

/-! ## 2. The step -/

/-- Sorting the rules changes neither what is owed nor the path store. -/
theorem results_select {site : Site} {rules : List Rule} {s : Selection} :
    Results (select site rules s) f (fun s' g => g.store.path = f.store.path ∧
      g.store.heap.owed = f.store.heap.owed ∧ g.store.heap.renames = f.store.heap.renames ∧
      ∀ r ∈ s'.relevant, r ∈ s.relevant ∨ r ∈ rules) fun _ _ => True := by
  induction rules generalizing f s with
  | nil => exact ⟨rfl, rfl, rfl, fun r hr => .inl hr⟩
  | cons r rest ih =>
    unfold select
    simp only [results_bind, results_store]
    split
    · refine Results.mono ih (fun s' g hg => ⟨hg.1, hg.2.1, hg.2.2.1, fun r' hr' => ?_⟩)
        fun _ _ h => h
      obtain hr' | hr' := hg.2.2.2 r' hr'
      · exact (List.mem_append.1 hr').imp_right fun h =>
          List.mem_cons.2 (.inl (List.mem_singleton.1 h))
      · exact .inr (List.mem_cons_of_mem _ hr')
    · have hrest : ∀ {g : Frame Query} {s : Selection}, g.store.path = f.store.path →
          g.store.heap.owed = f.store.heap.owed → g.store.heap.renames = f.store.heap.renames →
          Results (select site rest s) g (fun s' g => g.store.path = f.store.path ∧
            g.store.heap.owed = f.store.heap.owed ∧
            g.store.heap.renames = f.store.heap.renames ∧
            ∀ r' ∈ s'.relevant, r' ∈ s.relevant ∨ r' ∈ r :: rest) fun _ _ => True := by
        intro g s hpath howed hrenames
        refine ih.mono (fun s' g' hg' => ?_) fun _ _ h => h
        obtain ⟨hpath', howed', hrenames', hrelevant⟩ := hg'
        exact ⟨hpath'.trans hpath, howed'.trans howed, hrenames'.trans hrenames, fun r' hr' =>
          (hrelevant r' hr').imp_right (List.mem_cons_of_mem _)⟩
      split
      · unfold onHeap HeapM.logProduced
        rw [results_bind, results_onPart, results_modifyStore]
        refine hrest rfl ?_ ?_
        · dsimp only
          split <;> rfl
        · dsimp only
          split <;> rfl
      · exact hrest rfl rfl rfl

/-- In every case of a definition neither store speaks of the local. -/
theorem results_visit_consumed (hsite : ∀ y : Location, y.isSite = true → A y)
    (hgraph : h.Within A) {site : Site} {i : Instruction} {d : Local}
    (hx : ¬ A (.slot site.method d)) (htarget : i.target? = some d) (hcall : i.call? = none)
    (hread : .slot site.method d ∉ i.read site.method)
    (hs : ∀ e ∈ f.store.heap.owed, e.Within (Pointer.Over A))
    (hrenames : ∀ r ∈ f.store.heap.renames, r.2.Over A)
    (honce : ∀ e ∈ HeapM.rootEdges f.store.heap (.slot site.method d),
      ∀ e' ∈ HeapM.rootEdges f.store.heap (.slot site.method d), e = e') :
    Results (visit h site i .derived) f
      (fun rest g => ∀ q ∈ g.store :: rest, q.Consumed A (.slot site.method d))
      fun _ _ => True := by
  have hrules : Draws (fun (_ : Timeless) _ => True) .world (Rule.derive h site i) fun _ rules =>
      ∀ r ∈ rules, r.Defines A (.slot site.method d) :=
    Rule.draws_derive_defines hgraph (fun s => hsite _ rfl) htarget hcall hread
  obtain ⟨_, -, -, hrules⟩ := hrules f.session trivial
  unfold visit requireAlive
  rw [results_bind, results_bind, results_store]
  split
  · trivial
  -- whatever is refuted on the way returns no case
  rw [results_pure, results_bind]
  refine results_requireNoNullConflict (fun _ => ?_) fun _ _ => trivial
  simp only [results_bind, results_fresh]
  refine results_select.mono (fun selection g hg => ?_) fun _ _ h => h
  obtain ⟨-, howed, hrenamed, hrelevant⟩ := hg
  refine Results.onRefuted ?_
  unfold onPath
  rw [results_onPart]
  refine (PathM.results_visit_consumes (f := ⟨g.store.path, g.session⟩) h htarget hcall
    hread).mono (fun paths gp hp => ?_) fun _ _ _ => ⟨trivial, trivial⟩
  obtain ⟨rfl, hconsumes⟩ := hp
  cases selection.nullShown with
  | some p => trivial
  | none =>
    dsimp only
    rw [results_bind]
    refine Results.onRefuted ?_
    unfold onHeap
    rw [results_onPart]
    have hrootEdges : HeapM.rootEdges g.store.heap = HeapM.rootEdges f.store.heap := by
      unfold HeapM.rootEdges
      rw [howed]
      rfl
    refine (HeapM.results_visit_offRoot (f := ⟨g.store.heap, gp.session⟩) htarget hcall hx
      (fun r hr => hrules r ((hrelevant r hr).resolve_left List.not_mem_nil))
      (by rw [howed]; exact hs) (by rw [hrenamed]; exact hrenames)
      (by rw [hrootEdges]; exact honce)).mono (fun heaps gh hheaps => ?_)
      fun _ _ _ => ⟨trivial, trivial⟩
    rw [results_bind, results_store, results_bind]
    refine (results_attemptAll_live (P := fun q => q.Consumed A (.slot site.method d))
      (fun b hb session => ?_) fun q hq => ?_).mono (fun cases g' hcases => ?_) fun _ _ h => h
    · -- each pair is of a case of the heap store and the only case of the path store
      obtain ⟨pair, hpair, rfl⟩ := List.mem_map.1 hb
      obtain ⟨heap, hheap, hpair⟩ := List.mem_flatMap.1 hpair
      obtain ⟨path, hpath, rfl⟩ := List.mem_map.1 hpair
      rw [List.mem_singleton.1 hpath]
      exact results_settle_consumed hx hsite hgraph ⟨hheaps heap hheap, hconsumes.within⟩
    · cases hq
    · have hcommit : ∀ g, Results (commit (fun r => refuting (halt r)) cases) g
          (fun rest g => ∀ q ∈ g.store :: rest, q.Consumed A (.slot site.method d))
          fun _ _ => True := fun g => by
        refine results_commit (R := fun live => ∀ q ∈ live, Query.Consumed A _ q) (fun _ => ?_)
          hcases.2
        exact Results.onRefuted ⟨trivial, trivial⟩
      split
      · rw [results_bind, results_debug]
        exact hcommit _
      · exact hcommit _

/-- A definition consumes every demand on the defined local. If the step goes on, then in every case
no constraint mentions the local and no edge is owed on it. The path store on its own keeps, in
every case, the constraints that did not mention the local. -/
theorem visit_consumes_definition {h : HeapGraph} {site : Site} {i : Instruction} {d : Local}
    (hroots : ∀ r ∈ h.roots, ∀ y ∈ r.pointsTo, y.isSite = true)
    (hedges : ∀ e ∈ h.edges, e.sink.isSite = true)
    (htarget : i.target? = some d) (hcall : i.call? = none)
    (hread : .slot site.method d ∉ i.read site.method) :
    (∀ (f g : Frame Query) (rest : List Query),
      (∀ e ∈ f.store.heap.owed, e.Within fun p => p.isSite = true) →
      (∀ r ∈ f.store.heap.renames, r.2.isSite = true) →
      (∀ m l, (HeapM.rootEdges f.store.heap (.slot m l)).length ≤ 1) →
      visit h site i .derived f = .ok rest g →
      ∀ q ∈ g.store :: rest, (∀ c ∈ q.path.constraints, c.mentions (.slot site.method d) = false) ∧
        HeapM.rootEdges q.heap (.slot site.method d) = []) ∧
    ∀ (f g : Frame PathStore) (rest : List PathStore), PathM.visit h site i f = .ok rest g →
      ∀ t ∈ g.store :: rest, ∀ c ∈ f.store.constraints,
        c.mentions (.slot site.method d) = false → ∃ c' ∈ t.constraints, c'.sameAs c = true := by
  constructor
  · intro f g rest hs hrenames honce hrun q hq
    have hsingle : ∀ e ∈ HeapM.rootEdges f.store.heap (.slot site.method d),
        ∀ e' ∈ HeapM.rootEdges f.store.heap (.slot site.method d), e = e' := by
      have hlength := honce site.method d
      intro e he e' he'
      match hedges : HeapM.rootEdges f.store.heap (.slot site.method d) with
      | [] =>
        rw [hedges] at he
        cases he
      | [e₁] =>
        rw [hedges] at he he'
        exact (List.mem_singleton.1 he).trans (List.mem_singleton.1 he').symm
      | e₁ :: e₂ :: more =>
        rw [hedges] at hlength
        simp at hlength
    have hconsumed := (results_visit_consumed (A := fun y => y.isSite = true) (fun _ hy => hy)
      (HeapGraph.within_of_facts hroots hedges) (by rintro ⟨⟩) htarget hcall hread
      (fun e he => (hs e he).mono fun p hp => Pointer.isSite_iff.1 hp)
      (fun r hr => Pointer.isSite_iff.1 (hrenames r hr)) hsingle).of_ok hrun q hq
    refine ⟨PathStore.within_ne_iff.1 hconsumed.path, ?_⟩
    refine List.eq_nil_iff_forall_not_mem.2 fun e he => ?_
    obtain ⟨he, hfield, hsource⟩ := HeapM.mem_rootEdges.1 he
    exact (hconsumed.heap.owed e he).source (Option.isNone_iff_eq_none.2 hfield) hsource
  · intro f g rest hrun t ht c hc hmentions
    obtain ⟨rfl, hconsumes⟩ := (PathM.results_visit_consumes h htarget hcall hread).of_ok hrun
    rw [List.mem_singleton.1 ht]
    exact hconsumes.spares c hmentions ⟨c, hc, Constraint.sameAs_refl c⟩

end QueryM

namespace LoadedField

def site : Site := ⟨⟨0⟩, false⟩

def next : Field := .named "A" "next"

def first : AllocSite := ⟨1, "A", ⟨0⟩⟩

def second : AllocSite := ⟨2, "A", ⟨0⟩⟩

/-- Local 2 points to the first site, whose objects lead to the second one. -/
def graph : HeapGraph :=
  { roots := [⟨.slot ⟨0⟩ 2, [.site first]⟩], edges := [⟨.site first, next, .site second⟩] }

/-- Local 1 is an object of the second site with a field 5, and local 3 is zero. -/
def frame : Frame Query where
  store :=
    { heap := { owed := .ofList [.root (.slot ⟨0⟩ 1) (.site second)] }
      path :=
        { constraints :=
            [⟨.read (.slot ⟨0⟩ 1) (.named "A" "value"), .eq, .const 5, ⟨0⟩⟩,
              ⟨.bare (.slot ⟨0⟩ 3), .eq, .const 0, ⟨1⟩⟩] } }
  session := {}

theorem rootEdges_frame (m : MethodId) (l : Local) :
    (HeapM.rootEdges frame.store.heap (.slot m l)).length ≤ 1 := by
  have howed : frame.store.heap.owed.toList = [.root (.slot ⟨0⟩ 1) (.site second)] := by decide
  unfold HeapM.rootEdges
  rw [howed]
  exact List.length_filter_le _ _

/-- The load of `next` into local 1 is stepped over in one case, where both stores speak of local 2
instead. -/
theorem visit_load_consumes :
    Ends (QueryM.visit graph site (.load 1 2 next) .derived) frame fun rest g =>
      rest = [] ∧ g.store.path.constraints ≠ [] ∧ g.store.heap.owed ≠ ∅ ∧
        (∀ c ∈ g.store.path.constraints, c.mentions (.slot site.method 1) = false) ∧
        HeapM.rootEdges g.store.heap (.slot site.method 1) = [] := by
  have hends : Ends (QueryM.visit graph site (.load 1 2 next) .derived) frame fun rest g =>
      decide (rest = [] ∧ g.store.path.constraints ≠ [] ∧ g.store.heap.owed ≠ ∅) = true :=
    ends_of_endsWith (by decide +kernel)
  obtain ⟨rest, g, hrun, hbranches⟩ := hends
  obtain ⟨rfl, hpath, howed⟩ := of_decide_eq_true hbranches
  obtain ⟨hquery, -⟩ := @QueryM.visit_consumes_definition graph site (.load 1 2 next) 1 (by decide)
    (by decide) rfl rfl (by decide)
  have hwithin : ∀ e ∈ frame.store.heap.owed, e.Within fun p => p.isSite = true := by
    intro e he
    rw [List.mem_singleton.1 (SortedSet.mem_ofList.1 he)]
    exact ⟨.inl rfl, by decide⟩
  exact ⟨[], g, hrun, rfl, hpath, howed,
    hquery frame g [] hwithin (fun r hr => by cases hr) rootEdges_frame hrun _ List.mem_cons_self⟩

end LoadedField

end Refuter
