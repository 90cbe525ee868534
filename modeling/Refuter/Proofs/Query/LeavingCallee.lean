import Refuter.Proofs.Heap.WellFormed
import Refuter.Proofs.Query.Settling

/-!
# Leaving a callee

Going backwards a callee is left through its entry. Its formals become the actuals of the call,
and no other name of its frame means anything before: an edge that is still owed on one can no
longer be produced, and what else was known of the frame is forgotten. The renames that are
replayed last cannot bring a name back, because they lead to allocated objects.
-/

namespace Refuter

open StoreM

/-- Objects are in no frame. -/
theorem Pointer.method?_ne_of_over {p : Pointer} {m : MethodId} (h : p.Over (·.isSite = true)) :
    p.method? ≠ some m := by
  cases p with
  | choice i cs => rintro ⟨⟩
  | known x =>
    have hx := h x (SortedSet.mem_singleton.2 rfl)
    cases x with
    | site s => rintro ⟨⟩
    | slot | result | global | index => cases hx

/-! ## 1. The path store -/

namespace PathM

variable {f : Frame PathStore}

/-- Returning from a call does not fault. -/
theorem halts_returnToCaller (target : Option Local) (callee : Method) (args : List Operand)
    (caller : Site) : Results (returnToCaller (.invoke target callee args) caller) f
      (fun _ _ => True) fun e _ => IsRefutation e :=
  (evolves_returnToCaller (w := .world) (PathStore.law_any fun r => ⟨r, rfl⟩) _ caller
    fun h => by cases h).halts trivial trivial

/-- No path starts in the frame of the callee once it is left. -/
theorem results_returnToCaller_within (target : Option Local) {callee : Method}
    (args : List Operand) {caller : Site} (hcaller : caller.method ≠ callee.id) :
    Results (returnToCaller (.invoke target callee args) caller) f
      (fun _ g => g.store.Within fun p => p.method? ≠ some callee.id) fun _ _ => True := by
  unfold returnToCaller
  rw [results_bind]
  show Results (pure _) f _ _
  rw [results_pure, results_bind]
  refine results_of_forall (fun _ g => ?_) fun _ _ => trivial
  rw [results_bind]
  refine results_of_forall (fun _ g => ?_) fun _ _ => trivial
  rw [if_pos hcaller]
  simp only [results_bind, results_pure]
  -- whatever became of the formals, the constraints on the frame are dropped at the end
  refine results_dropWhere_within fun c _ htest v hv => ?_
  simpa using List.any_eq_false.1 htest v hv

end PathM

/-! ## 2. The heap store -/

/-- Nothing that is owed or was produced hangs on the frame of `m`. -/
structure HeapStore.IsOutside (m : MethodId) (s : HeapStore) : Prop where
  owed : ∀ e ∈ s.owed, e.source.method? ≠ some m
  produced : ∀ e ∈ s.produced, e.source.method? ≠ some m ∧ e.sink.method? ≠ some m

/-- The store was left without the edges on some sources. -/
structure HeapStore.Releases (sources : List Pointer) (s t : HeapStore) : Prop where
  owed : ∀ e ∈ t.owed, e ∈ s.owed
  kept : ∀ e ∈ s.owed, e.source ∉ sources → e ∈ t.owed
  renames : t.renames = s.renames

namespace HeapStore.Releases

variable {sources more : List Pointer} {s t u : HeapStore} {e : Edge}

theorem refl (s : HeapStore) : s.Releases sources s := ⟨fun _ h => h, fun _ h _ => h, rfl⟩

theorem erase (he : e.source ∈ sources) :
    s.Releases sources { s with owed := s.owed.erase e } where
  owed _ hd := (SortedSet.mem_erase.1 hd).1
  kept _ hd hd' := SortedSet.mem_erase.2 ⟨hd, fun heq => hd' (heq ▸ he)⟩
  renames := rfl

theorem append (h : s.Releases sources t) (h' : t.Releases more u) :
    s.Releases (sources ++ more) u where
  owed e he := h.owed e (h'.owed e he)
  kept e he hsource := h'.kept e (h.kept e he fun hmem => hsource (List.mem_append_left _ hmem))
    fun hmem => hsource (List.mem_append_right _ hmem)
  renames := h'.renames.trans h.renames

theorem trans (h : s.Releases sources t) (h' : t.Releases sources u) : s.Releases sources u where
  owed := (h.append h').owed
  kept e he hsource := (h.append h').kept e he fun hmem => hsource (or_self_iff.1
    (List.mem_append.1 hmem))
  renames := (h.append h').renames

end HeapStore.Releases

namespace HeapM

variable {f : Frame HeapStore} {A : Location → Prop} {caller : Site} {m : MethodId}

/-! ### Taking edges off -/

/-- The formal is not over `A`, so it is no sink and the edges keep theirs. -/
theorem results_takeEdges {x : Location} {actual : Option Location} {edges : List Edge}
    (hx : ¬ A x) (he : ∀ e ∈ edges, e.sink.Over A) (hsource : ∀ e ∈ edges, e.source = .known x) :
    Results (takeEdges (.known x) (actual.map .known) edges) f
      (fun taken g => f.store.Releases [.known x] g.store ∧ ∀ e ∈ taken, e.sink.Over A)
      fun _ _ => True := by
  induction edges generalizing f with
  | nil => exact ⟨.refl _, fun e he => by cases he⟩
  | cons e rest ih =>
    unfold takeEdges discharge
    rw [results_bind, results_modifyStore]
    cases actual with
    | none => trivial
    | some y =>
      simp only [Option.map_some, results_bind, results_pure]
      refine (ih (fun d hd => he d (List.mem_cons_of_mem _ hd)) fun d hd =>
        hsource d (List.mem_cons_of_mem _ hd)).mono (fun taken g hg => ?_) fun _ _ h => h
      obtain ⟨hreleases, htaken⟩ := hg
      have herase : f.store.Releases [.known x] { f.store with owed := f.store.owed.erase e } :=
        .erase (List.mem_singleton.2 (hsource e List.mem_cons_self))
      refine ⟨herase.trans hreleases, fun d hd => ?_⟩
      obtain rfl | hd := List.mem_cons.1 hd
      · -- the formal is replaced at the source only
        have hsink := he e List.mem_cons_self
        have hne : e.sink ≠ .known x := fun heq =>
          hx (hsink x (heq ▸ SortedSet.mem_singleton.2 rfl))
        show Pointer.Over A (if e.sink = .known x then .known y else e.sink)
        rw [if_neg hne]
        exact hsink
      · exact htaken d hd

theorem actual_eq (o : Operand) : o.local?.map (Pointer.slot caller.method) =
    (o.local?.map (Location.slot caller.method)).map .known := by
  rw [Option.map_map]
  rfl

/-- The formals that are bound to an actual. -/
def formals (callee : MethodId) (args : List (Local × Operand)) : List Pointer :=
  args.map fun arg => .slot callee arg.1

theorem results_takeFormals {args : List (Local × Operand)} (hframe : ∀ l, ¬ A (.slot m l))
    (hs : ∀ e ∈ f.store.owed, e.sink.Over A) :
    Results (takeFormals caller m args) f
      (fun taken g => f.store.Releases (formals m args) g.store ∧ ∀ e ∈ taken, e.sink.Over A)
      fun _ _ => True := by
  induction args generalizing f with
  | nil => exact ⟨.refl _, fun e he => by cases he⟩
  | cons arg rest ih =>
    unfold takeFormals
    dsimp only
    rw [actual_eq, results_bind, results_store, results_bind]
    refine (results_takeEdges (hframe arg.1) (fun e he => hs e (mem_of_mem_edgesOf he))
      fun e he => of_decide_eq_true (List.mem_filter.1 he).2).mono (fun taken g hg => ?_)
      fun _ _ h => h
    rw [results_bind]
    refine (ih fun e he => hs e (hg.1.owed e he)).mono (fun more g' hg' => ⟨?_, fun e he => ?_⟩)
      fun _ _ h => h
    · exact hg.1.append hg'.1
    · exact (List.mem_append.1 he).elim (hg.2 e) (hg'.2 e)

/-! ### Leaving -/

theorem halts_returnToCaller (target : Option Local) (callee : Method) (args : List Operand)
    (caller : Site) (hw : f.store.WellFormed) :
    Results (returnToCaller (.invoke target callee args) caller) f (fun _ _ => True)
      fun e _ => IsRefutation e :=
  (evolves_returnToCaller (w := .world) HeapStore.law_wellFormed _ caller
    fun h => by cases h).halts trivial hw

/-- A callee is left only if nothing is owed on its frame. Known sources that are no formals are
owed to the end. -/
theorem results_returnToCaller (target : Option Local) {callee : Method} (args : List Operand)
    (hcaller : caller.method ≠ callee.id) (hframe : ∀ l, ¬ A (.slot callee.id l))
    (hs : f.store.LeadsTo A) :
    Results (returnToCaller (.invoke target callee args) caller) f
      (fun _ g => g.store.IsOutside callee.id ∧ g.store.LeadsTo A ∧
        ∀ d ∈ f.store.owed, d.source.isChoice = false →
          d.source ∉ formals callee.id (callee.params.zip args) →
          ∃ e ∈ g.store.owed, e.source = d.source)
      fun _ _ => True := by
  unfold returnToCaller requireFeasible
  simp only [results_bind, results_store]
  split
  · trivial
  · show Results (pure _) f _ _
    rw [results_pure]
    refine (results_takeFormals hframe hs.sinks).mono (fun taken g hg => ?_) fun _ _ h => h
    obtain ⟨hreleases, htaken⟩ := hg
    have hleads : g.store.LeadsTo A :=
      ⟨fun e he => hs.sinks e (hreleases.owed e he), hreleases.renames ▸ hs.renames⟩
    refine (results_addAll hleads htaken).mono (fun _ g' hg' => ?_) fun _ _ h => h
    rw [if_neg hcaller, results_bind, results_store]
    split
    · trivial
    · -- no owed edge was found on the frame, and the log is purged of it
      rename_i hnone
      refine ⟨⟨fun e he => ?_, fun e he => ?_⟩, ⟨hg'.1.sinks, hg'.1.renames⟩, fun d hd hknown hd' =>
        hg'.2 d (hreleases.kept d hd hd') hknown⟩
      · simpa using List.find?_eq_none.1 hnone e he
      · simpa [touchesFrame] using (List.mem_filter.1 he).2

end HeapM

/-! ## 3. The query -/

namespace QueryM

variable {f : Frame Query} {caller : Site}

/-- What is left of the query when it leaves a callee has no name of the callee's frame. -/
theorem results_returnToCaller_isOutside (target : Option Local) {callee : Method}
    {args : List Operand} (hcaller : caller.method ≠ callee.id)
    (hs : f.store.heap.LeadsTo (·.isSite = true)) :
    Results (returnToCaller (.invoke target callee args) caller) f
      (fun _ g => g.store.heap.IsOutside callee.id ∧
        (g.store.path.Within fun p => p.method? ≠ some callee.id) ∧
        ∀ d ∈ f.store.heap.owed, d.source.isChoice = false →
          d.source ∉ HeapM.formals callee.id (callee.params.zip args) →
          ∃ e ∈ g.store.heap.owed, e.source = d.source)
      fun _ _ => True := by
  unfold returnToCaller requireAlive
  simp only [results_bind, results_store]
  split
  · trivial
  · refine Results.onRefuted ?_
    unfold onPath onHeap
    simp only [results_bind, results_onPart]
    refine (PathM.results_returnToCaller_within (f := ⟨f.store.path, f.session⟩) target args
      hcaller).mono (fun _ g hpath => ?_) fun _ _ _ => ⟨trivial, trivial⟩
    refine (HeapM.results_returnToCaller (f := ⟨f.store.heap, g.session⟩) target args hcaller
      (fun l h => by cases h) hs).mono (fun _ g' hheap => ?_) fun _ _ _ => ⟨trivial, trivial⟩
    obtain ⟨houtside, hleads, hkept⟩ := hheap
    -- the renames lead to objects, which are in no frame
    have hframe : ∀ r ∈ g'.store.renames, r.2.method? ≠ some callee.id := fun r hr =>
      Pointer.method?_ne_of_over (hleads.renames r hr)
    refine (results_replayPending_within hpath hframe).mono (fun _ g'' hg'' => ?_)
      fun _ _ _ => ⟨trivial, trivial⟩
    refine results_requireNoNullConflict (fun _ => ⟨?_, hg''.2, ?_⟩) fun _ _ => ⟨trivial, trivial⟩
    · rw [hg''.1]
      exact ⟨houtside.owed, houtside.produced⟩
    · rw [hg''.1]
      exact hkept

/-- An edge on a name of the callee that no actual stands for refutes the query. -/
theorem refutes_returnToCaller (target : Option Local) {callee : Method} {args : List Operand}
    (hcaller : caller.method ≠ callee.id) (hs : f.store.heap.LeadsTo (·.isSite = true))
    (hw : f.store.heap.WellFormed) {e : Edge} (he : e ∈ f.store.heap.owed)
    (hknown : e.source.isChoice = false) (hframe : e.source.method? = some callee.id)
    (hformal : e.source ∉ HeapM.formals callee.id (callee.params.zip args)) :
    ∃ r, Refutes (returnToCaller (.invoke target callee args) caller) f r := by
  have hrun : Results (returnToCaller (.invoke target callee args) caller) f (fun _ _ => False)
      fun e _ => IsRefutation e := by
    unfold returnToCaller requireAlive
    simp only [results_bind, results_store]
    split
    · exact ⟨_, rfl⟩
    · refine Results.onRefuted ?_
      unfold onPath onHeap
      simp only [results_bind, results_onPart]
      refine (PathM.halts_returnToCaller target callee args caller).mono (fun _ g _ => ?_)
        fun _ _ h => ⟨h, h⟩
      have hheap := HeapM.results_returnToCaller (f := ⟨f.store.heap, g.session⟩) target args
        hcaller (fun l h => by cases h) hs
      refine (hheap.and (HeapM.halts_returnToCaller target callee args caller hw)).mono
        (fun _ g' hg' => ?_) fun _ _ h => ⟨h.2, h.2⟩
      -- the edge would still be owed outside the frame it is on
      obtain ⟨⟨houtside, -, hkept⟩, -⟩ := hg'
      obtain ⟨d, hd, hsource⟩ := hkept e he hknown hformal
      exact absurd (hsource ▸ hframe) (houtside.owed d hd)
  unfold Results at hrun
  split at hrun
  · exact hrun.elim
  · rename_i g heq
    obtain ⟨r, rfl⟩ := hrun
    exact ⟨r, g, heq⟩

/-- No name of the callee survives leaving it. If the query goes on, nothing owed or produced and
no path of a constraint hangs on the callee's frame. An edge owed on a local that is not bound to
an actual, or on the result of the callee, refutes the query. -/
theorem returnToCaller_leaves_no_name (target : Option Local) (callee : Method)
    (args : List Operand) {caller : Site} (hcaller : caller.method ≠ callee.id) {f : Frame Query}
    (hs : f.store.heap.LeadsTo (·.isSite = true)) :
    (∀ g, returnToCaller (.invoke target callee args) caller f = .ok () g →
      g.store.heap.IsOutside callee.id ∧
        ∀ v ∈ g.store.path.paths, v.base.method? ≠ some callee.id) ∧
    (f.store.heap.WellFormed → ∀ e ∈ f.store.heap.owed,
      e.source = .result callee.id ∨ (∃ l, e.source = .slot callee.id l ∧
        ∀ b ∈ callee.params.zip args, b.1 ≠ l) →
      ∃ r, Refutes (returnToCaller (.invoke target callee args) caller) f r) := by
  refine ⟨fun g hrun => ?_, fun hw e he hsource => ?_⟩
  · obtain ⟨houtside, hwithin, -⟩ :=
      (results_returnToCaller_isOutside target hcaller hs).of_ok hrun
    exact ⟨houtside, hwithin⟩
  · obtain hsource | ⟨l, hsource, hl⟩ := hsource
    · refine refutes_returnToCaller target hcaller hs hw he (hsource ▸ rfl) (hsource ▸ rfl) ?_
      rw [hsource]
      rintro hmem
      obtain ⟨b, -, hb⟩ := List.mem_map.1 hmem
      cases hb
    · refine refutes_returnToCaller target hcaller hs hw he (hsource ▸ rfl) (hsource ▸ rfl) ?_
      rw [hsource]
      rintro hmem
      obtain ⟨b, hb, hslot⟩ := List.mem_map.1 hmem
      cases hslot
      exact hl b hb rfl

end QueryM

namespace OneFormal

def caller : Site := ⟨⟨0⟩, false⟩

def callee : Method := { id := ⟨1⟩, className := "A", name := "f", params := [0] }

def objects : Pointer := .site ⟨1, "A", ⟨1⟩⟩

/-- An object is owed on the local `l` of the callee, one was produced on its local 5, and its local
3 is not null. -/
def frame (l : Local) : Frame Query where
  store :=
    { heap :=
        { owed := .ofList [.root (.slot callee.id l) objects]
          produced := [.root (.slot callee.id 5) objects] }
      path := { constraints := [⟨.bare (.slot callee.id 3), .ne, .const 0, ⟨0⟩⟩] } }
  session := {}

theorem eq_of_mem_owed {l : Local} {e : Edge} (he : e ∈ (frame l).store.heap.owed) :
    e = .root (.slot callee.id l) objects :=
  List.mem_singleton.1 (SortedSet.mem_ofList.1 he)

theorem leadsTo_frame (l : Local) : (frame l).store.heap.LeadsTo (·.isSite = true) where
  sinks e he := by
    rw [eq_of_mem_owed he]
    exact fun x hx => SortedSet.mem_singleton.1 hx ▸ rfl
  renames r hr := by cases hr

/-- The edge on the formal is owed by the actual, and nothing else of the callee is left; the same
edge on another local refutes the query. -/
theorem returnToCaller_moves_formal :
    (Ends (QueryM.returnToCaller (.invoke none callee [.slot 7]) caller) (frame 0) fun _ g =>
      g.store.heap.owed = .ofList [.root (.slot caller.method 7) objects] ∧
        g.store.heap.IsOutside callee.id ∧
        ∀ v ∈ g.store.path.paths, v.base.method? ≠ some callee.id) ∧
    ∃ r, Refutes (QueryM.returnToCaller (.invoke none callee [.slot 7]) caller) (frame 2) r := by
  have hcaller : caller.method ≠ callee.id := by decide
  obtain ⟨hends, -⟩ :=
    QueryM.returnToCaller_leaves_no_name none callee [.slot 7] hcaller (leadsTo_frame 0)
  obtain ⟨-, hrefutes⟩ :=
    QueryM.returnToCaller_leaves_no_name none callee [.slot 7] hcaller (leadsTo_frame 2)
  constructor
  · have hmoved : Ends (QueryM.returnToCaller (.invoke none callee [.slot 7]) caller) (frame 0)
        fun _ g => decide (g.store.heap.owed =
          .ofList [.root (.slot caller.method 7) objects]) = true :=
      ends_of_endsWith (by decide +kernel)
    obtain ⟨⟨⟩, g, hrun, howed⟩ := hmoved
    exact ⟨(), g, hrun, of_decide_eq_true howed, hends g hrun⟩
  · have hwellFormed : (frame 2).store.heap.WellFormed := fun e he => by
      rw [eq_of_mem_owed he]
      exact ⟨rfl, rfl⟩
    refine hrefutes hwellFormed (.root (.slot callee.id 2) objects) ?_ (.inr ⟨2, rfl, by decide⟩)
    exact SortedSet.mem_ofList.2 (List.mem_singleton.2 rfl)

end OneFormal

end Refuter
