import Refuter.Proofs.Heap.Operations
import Refuter.Query.Visit

/-!
# What operations do to a query

A query is a heap store and a path store. `Query.Law` ties a law of the one to a law of the other:
renames go from the heap store to the path store, and equations with allocated objects go back.
Every operation on a query then keeps what the two laws keep, in every branch.
-/

namespace Refuter

open StoreM

/-! ## 1. Promoted equations -/

/-- The constraint equates a field of a frame location with allocated objects, in one order or the
other. -/
structure Constraint.Equates (c : Constraint) (base : Pointer) (field : Field) (objects : Pointer) :
    Prop where
  op : c.op = .eq
  isFrame : base.isFrame = true
  isPseudo : field.isPseudo = false
  isSite : objects.isSite = true
  sides : c.lhs = .read base field ∧ c.rhs = .bare objects ∨
    c.rhs = .read base field ∧ c.lhs = .bare objects

namespace PathM

variable {c : Constraint} {l r : Term} {base objects : Pointer} {field : Field}

theorem fieldAndSites?_eq_some : fieldAndSites? l r = some (base, field, objects) ↔
    (l = .read base field ∧ r = .bare objects) ∧
      base.isFrame = true ∧ field.isPseudo = false ∧ objects.isSite = true := by
  constructor
  · intro h
    unfold fieldAndSites? at h
    split at h
    · rename_i b f v
      split at h
      · rename_i htest
        cases h
        obtain ⟨p, fields⟩ := v
        simp only [AccessPath.isSite, Bool.and_eq_true, List.isEmpty_iff,
          Bool.not_eq_true'] at htest
        obtain ⟨⟨⟨rfl, hsite⟩, hframe⟩, hpseudo⟩ := htest
        exact ⟨⟨rfl, rfl⟩, hframe, hpseudo, hsite⟩
      · cases h
    · cases h
  · rintro ⟨⟨rfl, rfl⟩, hframe, hpseudo, hsite⟩
    unfold fieldAndSites? Term.read Term.bare AccessPath.isSite
    simp [hframe, hpseudo, hsite]

/-- These are the equations that are promoted. -/
theorem siteEquality?_iff :
    siteEquality? c = some (base, field, objects) ↔ c.Equates base field objects := by
  unfold siteEquality?
  by_cases hop : c.op = .eq
  · rw [if_pos hop, Option.or_eq_some_iff, fieldAndSites?_eq_some, fieldAndSites?_eq_some]
    constructor
    · rintro (⟨hsides, hframe, hpseudo, hsite⟩ | ⟨-, hsides, hframe, hpseudo, hsite⟩)
      · exact ⟨hop, hframe, hpseudo, hsite, .inl hsides⟩
      · exact ⟨hop, hframe, hpseudo, hsite, .inr hsides⟩
    · rintro ⟨-, hframe, hpseudo, hsite, hsides | hsides⟩
      · exact .inl ⟨hsides, hframe, hpseudo, hsite⟩
      · refine .inr ⟨?_, hsides, hframe, hpseudo, hsite⟩
        -- the left side reads no field then
        rw [hsides.2]
        rfl
  · rw [if_neg hop]
    exact ⟨fun h => (by cases h), fun h => absurd h.op hop⟩

theorem siteEquality?_eq_none_iff :
    siteEquality? c = none ↔ ∀ base field objects, ¬ c.Equates base field objects := by
  simp only [Option.eq_none_iff_forall_ne_some, ne_eq, Prod.forall, siteEquality?_iff]

end PathM

namespace Constraint.Equates

variable {c : Constraint} {base objects : Pointer} {field : Field}

theorem mem_paths (h : c.Equates base field objects) :
    ⟨base, [field]⟩ ∈ c.paths ∧ ⟨objects, []⟩ ∈ c.paths := by
  unfold Constraint.paths
  obtain ⟨hl, hr⟩ | ⟨hr, hl⟩ := h.sides
  · rw [hl, hr]
    exact ⟨List.mem_cons_self, List.mem_cons_of_mem _ List.mem_cons_self⟩
  · rw [hl, hr]
    exact ⟨List.mem_cons_of_mem _ List.mem_cons_self, List.mem_cons_self⟩

end Constraint.Equates

theorem Pointer.isChoice_eq_false_of_isFrame {p : Pointer} (h : p.isFrame = true) :
    p.isChoice = false := by
  cases p with
  | choice i cs => cases h
  | known x => rfl

/-- What a frame location points to is in `A`. -/
theorem HeapGraph.Within.ofPointer {A : Location → Prop} {h : HeapGraph} {p : Pointer}
    {x : Location} (hgraph : h.Within A) (hp : p.isFrame = true) (hx : x ∈ h.ofPointer p) :
    A x := by
  cases p with
  | choice i cs => cases hp
  | known y =>
    obtain ⟨z, hz, hx⟩ := SortedSet.mem_bind.1 hx
    rw [SortedSet.mem_singleton.1 hz] at hx
    cases y with
    | slot | result => exact hgraph.ofRoot hx
    | site | index | global => cases hp

/-! ## 2. The law -/

variable {W : Type} [Preorder W]

/-- What properties of the two stores need, to be kept by every operation on queries. Pointers of
the heap store are within `G` and pointers of the path store within `G'`. -/
structure Query.Law (J : W → Session → Prop) (PH : W → HeapStore → Prop) (PP : W → PathStore → Prop)
    (E : Halt → Prop) (A : Location → Prop) (G G' : W → Pointer → Prop) : Prop where
  heap : HeapStore.Law J PH E A G
  path : PathStore.Law J PP E G'
  /-- what the heap store puts in for a choice, the path store takes -/
  renamed : ∀ {w : W} {p : Pointer}, G w p → G' w p
  renames : ∀ {w : W} {s : HeapStore} {r : Pointer × Pointer}, PH w s → r ∈ s.renames → G' w r.2
  replayed : ∀ {w : W} {s : HeapStore}, PH w s → PH w { s with renames := [] }
  /-- objects that the path store stands for, the heap store takes -/
  objects : ∀ {w : W} {s : PathStore} {c : Constraint} {v : AccessPath}, PP w s →
    c ∈ s.constraints → v ∈ c.paths → v.base.isSite = true → G w v.base
  /-- the solver is asked -/
  asked : ∀ {w : W} {s : Session} (solver : Option Smt.Solver) (disabled : Bool)
    (journal : List Record), J w s →
    J w { s with solver := solver, solverDisabled := disabled, journal := journal }
  checked : ∀ {w : W} {s : PathStore}, PP w s → PP w { s with checked := true }
  /-- a branch is given up -/
  declared : ∀ {w : W} {s : Session} (n : Nat), J w s → J w { s with optimistic := n }

/-- Both stores have their property. -/
def Query.Both (PH : W → HeapStore → Prop) (PP : W → PathStore → Prop) (w : W) (q : Query) : Prop :=
  PH w q.heap ∧ PP w q.path

/-! ## 3. Operations -/

namespace QueryM

variable {J : W → Session → Prop} {PH : W → HeapStore → Prop} {PP : W → PathStore → Prop}
  {E : Halt → Prop} {A : Location → Prop} {G G' : W → Pointer → Prop} {w : W} {α : Type}
  {h : HeapGraph}

section Operations

variable (law : Query.Law J PH PP E A G G')
include law

theorem both_mono : Monotone (Query.Both PH PP) :=
  fun _ _ hw q hq => ⟨law.heap.mono hw q.heap hq.1, law.path.mono hw q.path hq.2⟩

theorem evolves_onHeap {x : HeapM α} {Q : W → α → Prop} (hx : Evolves J PH E w x Q) :
    Evolves J (Query.Both PH PP) E w (onHeap x) Q :=
  hx.onPart (fun _ hq => hq.1) fun _ q _ hw hq hs => ⟨hs, law.path.mono hw q.path hq.2⟩

theorem evolves_onPath {x : PathM α} {Q : W → α → Prop} (hx : Evolves J PP E w x Q) :
    Evolves J (Query.Both PH PP) E w (onPath x) Q :=
  hx.onPart (fun _ hq => hq.2) fun _ q _ hw hq hs => ⟨law.heap.mono hw q.heap hq.1, hs⟩

omit law in
theorem evolves_refuting {x : QueryM α} {Q : W → α → Prop}
    (hx : Evolves J (Query.Both PH PP) E w x Q) :
    Evolves J (Query.Both PH PP) E w (refuting x) Q :=
  hx.onRefuted fun _ _ hq => hq

theorem evolves_refutes {r : Refutation} {Q : W → α → Prop} :
    Evolves J (Query.Both PH PP) E w (refuting (halt r)) Q :=
  evolves_refuting (evolves_throw (law.heap.refutes r))

theorem evolves_requireAlive :
    Evolves J (Query.Both PH PP) E w requireAlive fun _ _ => True := by
  refine evolves_store.bind fun w₁ q _ _ => ?_
  split
  · exact evolves_throw (law.heap.refutes _)
  · exact evolves_pure trivial

theorem evolves_requireNoNullConflict :
    Evolves J (Query.Both PH PP) E w requireNoNullConflict fun _ _ => True := by
  refine evolves_store.bind fun w₁ q _ _ => ?_
  split
  · exact evolves_refutes law
  · exact evolves_pure trivial

/-! ### Renames -/

theorem evolves_replay {renames : List (Pointer × Pointer)} (hr : ∀ r ∈ renames, G' w r.2) :
    Evolves J (Query.Both PH PP) E w (replay renames) fun _ _ => True := by
  induction renames generalizing w with
  | nil => exact evolves_pure trivial
  | cons r rest ih =>
    refine (evolves_onPath law (PathM.evolves_rename law.path (hr r List.mem_cons_self))).bind
      fun w₁ _ hw _ => ih fun r' hr' => ?_
    exact law.path.pointers hw _ (hr r' (List.mem_cons_of_mem _ hr'))

theorem evolves_replayPending :
    Evolves J (Query.Both PH PP) E w replayPending fun _ _ => True := by
  have htake : Evolves J PH E w HeapM.takeRenames fun w' renames => ∀ r ∈ renames, G' w' r.2 := by
    refine evolves_store.bind fun w₁ s _ hs => ?_
    refine (evolves_modifyStore fun _ => law.replayed).bind fun w₂ _ hw _ => evolves_pure ?_
    exact fun r hr => law.path.pointers hw _ (law.renames hs hr)
  exact (evolves_onHeap law htake).bind fun _ _ _ hr => evolves_replay law hr

/-! ### Settling -/

theorem evolves_promote (hgraph : h.Within A) {base objects : Pointer} {f : Field}
    (hbase : base.isFrame = true) (hobjects : G w objects) :
    Evolves J (Query.Both PH PP) E w (promote h (base, f, objects)) fun _ _ => True := by
  unfold promote
  refine (evolves_fresh (both_mono law) law.heap.pointers.make).bind fun w₁ o hw₁ hb => ?_
  cases o with
  | none => exact evolves_refutes law
  | some b =>
    have hb : G w₁ b := hb b rfl fun x hx => hgraph.ofPointer hbase hx
    refine (evolves_onHeap law (HeapM.evolves_addEdge law.heap
      ⟨.inl (Pointer.isChoice_eq_false_of_isFrame hbase), hb⟩)).bind
      fun w₂ renames hw₂ hr => ?_
    refine (evolves_replay law fun r hmem => law.renamed (hr r hmem).2.2).bind
      fun w₃ _ hw₃ _ => ?_
    have hmono : ∀ {w₁ w₂ : W}, w₁ ≤ w₂ → G w₁ ≤ G w₂ := fun hw => law.heap.pointers.mono hw
    have hedge : (Edge.ofField b f objects).Within (G w₂) :=
      ⟨.inr (hmono hw₂ b hb), hmono (le_trans hw₁ hw₂) objects hobjects⟩
    refine (evolves_onHeap law (HeapM.evolves_addEdge law.heap
      ((hedge.renameAll fun r hmem => (hr r hmem).2.2).mono (hmono hw₃)))).bind
      fun w₄ more _ hmore => ?_
    exact evolves_replay law fun r hmem => law.renamed (hmore r hmem).2.2

theorem evolves_promoteAll (hgraph : h.Within A) {equalities : List (Pointer × Field × Pointer)}
    (he : ∀ e ∈ equalities, e.1.isFrame = true ∧ G w e.2.2) :
    Evolves J (Query.Both PH PP) E w (promoteAll h equalities) fun _ _ => True := by
  induction equalities generalizing w with
  | nil => exact evolves_pure trivial
  | cons e rest ih =>
    obtain ⟨hbase, hobjects⟩ := he e List.mem_cons_self
    refine (evolves_promote law hgraph hbase hobjects).bind fun w₁ _ hw _ => ih fun d hd => ?_
    obtain ⟨hbase, hobjects⟩ := he d (List.mem_cons_of_mem _ hd)
    exact ⟨hbase, law.heap.pointers.mono hw _ hobjects⟩

theorem evolves_settle (hgraph : h.Within A) :
    Evolves J (Query.Both PH PP) E w (settle h) fun _ _ => True := by
  refine (evolves_replayPending law).bind fun w₁ _ _ _ =>
    (evolves_onPath law (PathM.evolves_takeSiteEqualities law.path)).bind fun w₂ taken _ ht => ?_
  obtain ⟨s, hs, rfl⟩ := ht
  refine (evolves_promoteAll law hgraph fun e he => ?_).bind fun _ _ _ _ =>
    (evolves_replayPending law).bind fun _ _ _ _ => evolves_requireNoNullConflict law
  obtain ⟨c, hc, he⟩ := List.mem_filterMap.1 he
  have hequates : c.Equates e.1 e.2.1 e.2.2 := PathM.siteEquality?_iff.1 he
  exact ⟨hequates.isFrame, law.objects hs hc hequates.mem_paths.2 hequates.isSite⟩

/-! ### Instructions -/

theorem evolves_select (site : Site) {rules : List Rule} {s : Selection}
    (hrules : ∀ r ∈ rules, r.Within (G w)) (hs : ∀ r ∈ s.relevant, r.Within (G w)) :
    Evolves J (Query.Both PH PP) E w (select site rules s) fun w' s =>
      ∀ r ∈ s.relevant, r.Within (G w') := by
  induction rules generalizing s w with
  | nil => exact evolves_pure hs
  | cons r rest ih =>
    have hmono : ∀ {w₁ w₂ : W}, w₁ ≤ w₂ → G w₁ ≤ G w₂ := fun hw => law.heap.pointers.mono hw
    have hrest : ∀ {w'}, w ≤ w' → ∀ r ∈ rest, r.Within (G w') := fun hw r hr =>
      (hrules r (List.mem_cons_of_mem _ hr)).mono (hmono hw)
    have hkept : ∀ {w'}, w ≤ w' → ∀ r ∈ s.relevant, r.Within (G w') := fun hw r hr =>
      (hs r hr).mono (hmono hw)
    refine evolves_store.bind fun w₁ q hw₁ _ => ?_
    have hr : r.Within (G w₁) := (hrules r List.mem_cons_self).mono (hmono hw₁)
    dsimp only
    split
    · refine ih (hrest hw₁) fun r' hr' => ?_
      obtain hr' | hr' := List.mem_append.1 hr'
      · exact hkept hw₁ r' hr'
      · rw [List.mem_singleton.1 hr']
        exact hr
    · split
      · refine (evolves_onHeap law (HeapM.evolves_logProduced law.heap hr.shown)).bind
          fun w₂ _ hw₂ _ => ?_
        exact ih (hrest (le_trans hw₁ hw₂)) (hkept (le_trans hw₁ hw₂))
      · exact ih (hrest hw₁) (hkept hw₁)

theorem evolves_visit (hgraph : h.Within A) (site : Site) (i : Instruction) {source : RuleSource}
    (hrules : ∀ w₁, w ≤ w₁ → Draws J w₁ (source.rules h site i) fun w' rules =>
      ∀ r ∈ rules, r.Within (G w')) :
    Evolves J (Query.Both PH PP) E w (visit h site i source) fun w' rest =>
      ∀ q ∈ rest, Query.Both PH PP w' q := by
  have hmono : ∀ {w₁ w₂ : W}, w₁ ≤ w₂ → G w₁ ≤ G w₂ := fun hw => law.heap.pointers.mono hw
  refine (evolves_requireAlive law).bind fun w₁ _ hw₁ _ =>
    (evolves_requireNoNullConflict law).bind fun w₂ _ hw₂ _ =>
    (evolves_fresh (both_mono law) (hrules w₂ (le_trans hw₁ hw₂))).bind fun w₃ rules _ hr =>
    (evolves_select law site hr fun r hr => by cases hr).bind fun w₄ selection _ hs =>
    (evolves_refuting (evolves_onPath law (PathM.evolves_visit law.path h site i))).bind
      fun w₅ paths hw₅ hpaths => ?_
  have hheaps : ∀ w', w₅ ≤ w' → Evolves J (Query.Both PH PP) E w' (do
      let heaps ← refuting (onHeap (HeapM.visit h site i selection.relevant))
      let q ← store
      let pairs := (q.heap :: heaps).flatMap fun heap =>
        (q.path :: paths).map fun path => { q with heap, path }
      let cases ← attemptAll (pairs.map (settle h, ·)) {}
      if cases.live.length > 1 then
        debug .query (i.name ++ " splits into " ++ toString cases.live.length ++ " cases")
      commit (fun r => refuting (halt r)) cases) fun w' rest =>
        ∀ q ∈ rest, Query.Both PH PP w' q := by
    intro w₆ hw₆
    refine (evolves_refuting (evolves_onHeap law (HeapM.evolves_visit law.heap site i
      fun r hr => (hs r hr).mono (hmono (le_trans hw₅ hw₆))))).bind fun w₇ heaps hw₇ hheaps => ?_
    refine evolves_store.bind fun w₈ q hw₈ hq => ?_
    -- every pair takes its heap store and its path store from a case that has the property
    have hpairs : ∀ heap ∈ q.heap :: heaps, ∀ path ∈ q.path :: paths, ∀ w', w₈ ≤ w' →
        PH w' heap ∧ PP w' path := by
      intro heap hheap path hpath w' hw'
      constructor
      · obtain rfl | hheap := List.mem_cons.1 hheap
        · exact law.heap.mono hw' _ hq.1
        · exact law.heap.mono (le_trans hw₈ hw') _ (hheaps heap hheap)
      · obtain rfl | hpath := List.mem_cons.1 hpath
        · exact law.path.mono hw' _ hq.2
        · exact law.path.mono (le_trans (le_trans hw₆ hw₇) (le_trans hw₈ hw')) _
            (hpaths path hpath)
    refine (evolves_attemptAll (both_mono law) (both_mono law) (fun _ h => h)
      (fun b hb w' hw' => ?_) fun t ht => by cases ht).bind fun w₉ cases _ hlive => ?_
    · obtain ⟨pair, hpair, rfl⟩ := List.mem_map.1 hb
      obtain ⟨heap, hheap, hpair⟩ := List.mem_flatMap.1 hpair
      obtain ⟨path, hpath, rfl⟩ := List.mem_map.1 hpair
      exact (evolves_settle law hgraph).on (hpairs heap hheap path hpath w' hw')
    · split
      · exact (evolves_note (both_mono law) law.heap.notes).bind fun w' _ hw' _ =>
          evolves_commit (both_mono law) (fun _ => evolves_refutes law) fun q hq =>
            both_mono law hw' q (hlive q hq)
      · exact evolves_commit (both_mono law) (fun _ => evolves_refutes law) hlive
  dsimp only
  cases selection.nullShown with
  | none => exact hheaps w₅ (le_refl w₅)
  | some p =>
    exact (evolves_refutes law (Q := fun _ _ => True)).bind fun w' _ hw' _ => hheaps w' hw'

/-! ### Calls -/

theorem evolves_enterCallee (call : Instruction) (caller : Site) (callee : MethodId)
    (hcall : call.call? = none → E (.fault (.notACall .enterCallee call)))
    (henter : ∀ w' s d, PH w' s → PH w' (s.replace (.slot caller.method d) (.result callee))) :
    Evolves J (Query.Both PH PP) E w (enterCallee call caller callee) fun _ _ => True := by
  refine (evolves_requireAlive law).bind fun w₁ _ hw₁ _ => evolves_refuting ?_
  exact (evolves_onPath law (PathM.evolves_enterCallee law.path call caller callee hcall)).bind
    fun w₂ _ hw₂ _ => evolves_onHeap law
      (HeapM.evolves_enterCallee law.heap.toDropLaw call caller callee hcall (henter w₂))

theorem evolves_returnToCaller (call : Instruction) (caller : Site)
    (hcall : call.call? = none → E (.fault (.notACall .returnToCaller call))) :
    Evolves J (Query.Both PH PP) E w (returnToCaller call caller) fun _ _ => True := by
  refine (evolves_requireAlive law).bind fun _ _ _ _ => evolves_refuting ?_
  exact (evolves_onPath law (PathM.evolves_returnToCaller law.path call caller hcall)).bind
    fun _ _ _ _ => (evolves_onHeap law
      (HeapM.evolves_returnToCaller law.heap call caller hcall)).bind
    fun _ _ _ _ => (evolves_replayPending law).bind
    fun _ _ _ _ => evolves_requireNoNullConflict law

theorem evolves_skipCall (call : Instruction) (caller : Site)
    (hcall : call.call? = none → E (.fault (.notACall .skipCall call))) :
    Evolves J (Query.Both PH PP) E w (skipCall call caller) fun _ _ => True := by
  refine (evolves_requireAlive law).bind fun _ _ _ _ => evolves_refuting ?_
  exact (evolves_onPath law (PathM.evolves_skipCall law.path call caller hcall)).bind
    fun _ _ _ _ => evolves_onHeap law
      (HeapM.evolves_skipCall law.heap.toDropLaw call caller hcall)

/-! ### The ends of a search -/

theorem evolves_requireEdge {e : Edge} (he : e.Within (G w)) :
    Evolves J (Query.Both PH PP) E w (requireEdge e) fun _ _ => True :=
  (evolves_onHeap law (HeapM.evolves_addEdge law.heap he)).bind fun _ _ _ _ => evolves_pure trivial

theorem evolves_declareWitness :
    Evolves J (Query.Both PH PP) E w declareWitness fun _ _ => True := by
  refine evolves_store.bind fun w₁ q _ hq => ?_
  split
  · exact evolves_pure trivial
  · refine (evolves_note (both_mono law) law.heap.notes).bind fun w₂ _ hw₂ _ => ?_
    have hset : Query.Both PH PP w₂ { q with optimistic := true } := both_mono law hw₂ q hq
    refine (evolves_setStore hset).bind fun w₃ _ _ _ => ?_
    exact evolves_session (both_mono law) fun s hJ => ⟨w₃, le_refl w₃, law.declared _ hJ, trivial⟩

theorem evolves_check : Evolves J (Query.Both PH PP) E w check fun _ _ => True := by
  refine (evolves_requireAlive law).bind fun _ _ _ _ => evolves_refuting ?_
  exact (evolves_onHeap law
    (HeapM.evolves_requireFeasible (law.heap.refutes _))).bind fun _ _ _ _ =>
    evolves_onPath law (PathM.evolves_check law.path law.asked law.checked)

end Operations

end QueryM

end Refuter
