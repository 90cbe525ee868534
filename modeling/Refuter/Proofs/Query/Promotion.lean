import Refuter.Proofs.Heap.Tracking
import Refuter.Proofs.Query.Settling

/-!
# Promotion

An equation between a field of a local and allocated objects is a points-to fact. Settling a query
moves such equations from the path store to the heap store, where two edges through a common object
stand for them. A state that satisfied both stores before satisfies both afterwards, and settling
does not halt: the facts allow for the objects of the state, edges on one root agree in it, and a
root that holds an object is not null.
-/

namespace Refuter

open StoreM

/-! ## 1. States behind a query -/

namespace State

/-- The location may stand for the value. A site stands for any of its objects, and not always for
the same one. -/
def Stands (σ : State) (N : Naming) : Location → Value → Prop
  | .site s, x => ∃ r, x = .ref r ∧ σ.At r (.site s)
  | .index n, x => x = .int (N.index n)
  | y, x => x = σ.root y

/-- The path may have the value. -/
def Denotes (σ : State) (N : Naming) (v : AccessPath) (x : Value) : Prop :=
  ∃ y, σ.Stands N (v.base.pick N.location) y ∧ σ.chase N y v.fields = some x

end State

/-- The term may have the value, if `D` says which values a path may have. -/
def Term.MayBe (D : AccessPath → Value → Prop) : Term → Value → Prop
  | const k, x => x = .int k.toInt
  | var v, x => D v x
  | bin l op r, x =>
    ∃ a b c, l.MayBe D (.int a) ∧ r.MayBe D (.int b) ∧ op.result a b = some c ∧ x = .int c

/-- The comparison is true of some values of its sides. -/
def Constraint.MayHold (D : AccessPath → Value → Prop) (c : Constraint) : Prop :=
  ∃ a b, c.lhs.MayBe D a ∧ c.rhs.MayBe D b ∧ c.op.truth a b = some true

/-- The state satisfies both halves of a query that is not refuted. -/
structure State.Realizes (σ : State) (q : Query) : Prop where
  alive : q.isAlive = true
  heap : σ.Satisfies q.heap
  path : ∃ N, ∀ c ∈ q.path.constraints, c.MayHold (σ.Denotes N)

theorem Query.isAlive_iff {q : Query} : q.isAlive = true ↔
    q.feasible = true ∧ q.heap.feasible = true ∧ q.path.feasible = true := by
  unfold Query.isAlive
  rw [Bool.and_eq_true, Bool.and_eq_true, and_assoc]

/-! ## 2. What constraints say of roots -/

theorem Location.isRoot_of_isFrame {x : Location} (h : x.isFrame = true) : x.isRoot = true := by
  cases x with
  | slot | result => rfl
  | global | site | index => cases h

namespace State

variable {σ : State} {N : Naming} {x z : Location} {field : Field} {a : Value}

theorem Denotes.root_eq (hx : x.isRoot = true) (h : σ.Denotes N ⟨.known x, []⟩ a) :
    σ.root x = a := by
  obtain ⟨y, hy, hchase⟩ := h
  cases hchase
  cases x with
  | slot | result | global => exact hy.symm
  | site | index => cases hx

theorem Denotes.at_site (hz : z.isSite = true) (h : σ.Denotes N ⟨.known z, []⟩ a) :
    ∃ q, a = .ref q ∧ σ.At q z := by
  obtain ⟨y, hy, hchase⟩ := h
  cases hchase
  cases z with
  | site s => exact hy
  | slot | result | global | index => cases hz

/-- A field of a root is read from the object that the root holds. -/
theorem Denotes.exists_object (hx : x.isRoot = true) (hfield : field.isPseudo = false)
    (h : σ.Denotes N ⟨.known x, [field]⟩ a) :
    ∃ r b, σ.root x = .ref r ∧ σ.heap r = some b ∧ b.field field = a := by
  obtain ⟨y, hy, hchase⟩ := h
  have hroot : σ.root x = y := Denotes.root_eq (N := N) hx ⟨y, hy, rfl⟩
  cases y with
  | int n => cases hchase
  | ref r =>
    obtain ⟨b, hb, hread⟩ := Option.bind_eq_some_iff.1 hchase
    refine ⟨r, b, hroot, hb, ?_⟩
    cases field with
    | named | contents => exact Option.some.inj hread
    | element | length => cases hfield

end State

namespace Constraint.MayHold

variable {σ : State} {N : Naming} {c : Constraint} {x z : Location} {field : Field}

/-- The two sides of an equation have a value in common. -/
theorem exists_common {D : AccessPath → Value → Prop} (h : c.MayHold D) (hop : c.op = .eq) :
    ∃ a, c.lhs.MayBe D a ∧ c.rhs.MayBe D a := by
  obtain ⟨a, b, ha, hb, htruth⟩ := h
  rw [hop] at htruth
  obtain rfl : a = b := by simpa [CmpOp.truth] using htruth
  exact ⟨a, ha, hb⟩

/-- A root that is compared with zero holds no object. -/
theorem not_points_of_isNullTest {y : Location} (h : c.MayHold (σ.Denotes N))
    (hx : x.isRoot = true) (hc : PathStore.isNullTest (.known x) c = true) : ¬ σ.Points x y := by
  rintro ⟨r, hr, -⟩
  unfold PathStore.isNullTest at hc
  simp only [Bool.and_eq_true, Bool.or_eq_true, decide_eq_true_eq] at hc
  obtain ⟨a, hl, hr'⟩ := h.exists_common hc.1
  have hzero : σ.root x = .int 0 := by
    obtain ⟨hbare, hconst⟩ | ⟨hconst, hbare⟩ := hc.2
    · rw [hbare] at hl
      rw [hconst] at hr'
      rw [State.Denotes.root_eq hx hl, show a = .int 0 from hr']
    · rw [hconst] at hl
      rw [hbare] at hr'
      rw [State.Denotes.root_eq hx hr', show a = .int 0 from hl]
  rw [hzero] at hr
  cases hr

end Constraint.MayHold

/-- A root that holds an object is not null, so a query with a null conflict is realized by no
state. -/
theorem State.Realizes.nullConflict?_eq_none {σ : State} {q : Query} (h : σ.Realizes q) :
    q.nullConflict? = none := by
  obtain ⟨location, howed⟩ := h.heap
  obtain ⟨N, hpath⟩ := h.path
  unfold Query.nullConflict?
  rw [Option.map_eq_none_iff, List.find?_eq_none]
  intro e he hnull
  obtain ⟨hmem, htest⟩ := List.mem_filter.1 he
  obtain ⟨hroot, hframe⟩ := Bool.and_eq_true_iff.1 htest
  obtain ⟨c, hc, hnull⟩ := List.any_eq_true.1 hnull
  obtain ⟨-, -, hshows⟩ := howed e hmem
  rw [Option.isNone_iff_eq_none.1 hroot] at hshows
  -- the root of the edge holds an object, and the constraint says that it is null
  cases hsource : e.source with
  | choice i cs =>
    rw [hsource] at hframe
    cases hframe
  | known x =>
    rw [hsource] at hframe hnull hshows
    exact (hpath c hc).not_points_of_isNullTest (Location.isRoot_of_isFrame hframe) hnull hshows

/-! ## 3. Pairs of edges -/

/-- The state explains the equation `base.field = objects`: a root holds an object, and an object of
the same site has one of the other site in the field. -/
def State.Explains (σ : State) : Pointer × Field × Pointer → Prop
  | (base, field, objects) => ∃ x y z, base = .known x ∧ objects = .known z ∧ x.isRoot = true ∧
    σ.Points x y ∧ σ.PointsBy y field z

theorem Constraint.MayHold.explains {σ : State} {N : Naming} {c : Constraint}
    {base objects : Pointer} {field : Field} (h : c.MayHold (σ.Denotes N))
    (hc : c.Equates base field objects) (hknown : ∀ v ∈ c.paths, v.base.isChoice = false) :
    σ.Explains (base, field, objects) := by
  obtain ⟨hbase, hobjects⟩ := hc.mem_paths
  match base, objects, hknown _ hbase, hknown _ hobjects with
  | .known x, .known z, _, _ =>
    have hroot : x.isRoot = true := Location.isRoot_of_isFrame hc.isFrame
    have hz : z.isSite = true := Pointer.isSite_iff.1 hc.isSite z (SortedSet.mem_singleton.2 rfl)
    obtain ⟨a, hread, hsite⟩ :
        ∃ a, σ.Denotes N ⟨.known x, [field]⟩ a ∧ σ.Denotes N ⟨.known z, []⟩ a := by
      obtain ⟨a, hl, hr⟩ := h.exists_common hc.op
      obtain ⟨hread, hbare⟩ | ⟨hread, hbare⟩ := hc.sides
      · rw [hread] at hl
        rw [hbare] at hr
        exact ⟨a, hl, hr⟩
      · rw [hread] at hr
        rw [hbare] at hl
        exact ⟨a, hr, hl⟩
    obtain ⟨r, b, hr, hb, hfield⟩ := hread.exists_object hroot hc.isPseudo
    obtain ⟨q, rfl, hq⟩ := hsite.at_site hz
    exact ⟨x, .site b.site, z, rfl, rfl, hroot, ⟨r, hr, b, hb, rfl⟩,
      r, b, q, hb, rfl, .inl hfield, hq⟩

/-- The equation `base.field = objects` as two edges through one object. -/
def HeapStore.Represents (s : HeapStore) : Pointer × Field × Pointer → Prop
  | (base, field, objects) =>
    ∃ b, Edge.root base b ∈ s.owed ∧ Edge.ofField b field objects ∈ s.owed

/-- Two edges through one object stay two such edges, whatever the object is renamed to. -/
theorem HeapStore.Extends.represents {A : Location → Prop} {added : List Edge}
    {more : List (Pointer × Pointer)} {s t : HeapStore} {base b objects : Pointer} {field : Field}
    (h : s.Extends A added more t) (hbase : base.isChoice = false)
    (hobjects : objects.isChoice = false)
    (hroot : .root base b ∈ s.owed ∨ .root base b ∈ added)
    (hfield : .ofField b field objects ∈ s.owed ∨ .ofField b field objects ∈ added) :
    t.Represents (base, field, objects) := by
  refine ⟨b.renameAll more, (h.owed _).2 ⟨_, hroot, ?_⟩, (h.owed _).2 ⟨_, hfield, ?_⟩⟩
  · exact congrArg (Edge.root · (b.renameAll more)) (h.renameAll_known hbase)
  · exact congrArg (Edge.ofField (b.renameAll more) field ·) (h.renameAll_known hobjects)

namespace QueryM

variable {R : Reading} {σ : State} {h : HeapGraph} {q : Query} {f : Frame Query}

/-! ## 4. Promoting -/

/-- The heap store is tracked in `σ`, and the query has otherwise stayed as it was. Only choices
were renamed, which the path store does not have. -/
structure Tracks (R : Reading) (σ : State) (q : Query) (f : Frame Query) : Prop where
  heap : R.Tracks σ ⟨f.store.heap, f.session⟩
  renames : ∀ r ∈ f.store.heap.renames, r.1.isChoice = true
  known : q.path.Within fun p => p.isChoice = false
  rest : f.store = { q with heap := f.store.heap }

theorem Tracks.path_eq (ht : Tracks R σ q f) : f.store.path = q.path := by
  rw [ht.rest]

/-- Once its renames are replayed, the query is realized. -/
theorem Tracks.realizes (ht : Tracks R σ q f) (halive : q.isAlive = true)
    (hpath : ∃ N, ∀ c ∈ q.path.constraints, c.MayHold (σ.Denotes N)) :
    σ.Realizes { f.store with heap := { f.store.heap with renames := [] } } where
  alive := by
    obtain ⟨hquery, -, hpath⟩ := Query.isAlive_iff.1 halive
    rw [ht.rest]
    exact Query.isAlive_iff.2 ⟨hquery, ht.heap.feasible, hpath⟩
  heap := ht.heap.satisfies
  path := ht.path_eq ▸ hpath

/-- An explained edge can be added; it extends the heap store and the rest stays. -/
theorem ends_addEdge {e : Edge} (ht : Tracks R σ q f) (he : R.Explains σ e) :
    Ends (onHeap (HeapM.addEdge e)) f fun caused g =>
      (∃ R', R ≤ R' ∧ Tracks R' σ q g ∧ ∀ r ∈ caused, R'.Agree r.1 r.2) ∧
        f.store.heap.Extends (fun _ => True) [e] caused g.store.heap := by
  unfold onHeap
  rw [ends_onPart]
  have hadds := HeapM.results_addEdge_extends (A := fun _ => True) (e := e)
    (f := ⟨f.store.heap, f.session⟩) (fun _ _ _ _ => trivial) fun _ _ => trivial
  refine ((HeapM.ends_addEdge ht.heap he).and_results hadds).mono fun caused g hg => ?_
  obtain ⟨⟨R', hR, htg, hagree⟩, hextends⟩ := hg
  refine ⟨⟨R', hR, ⟨htg, fun r hr => ?_, ht.known, ?_⟩, hagree⟩, hextends⟩
  · rw [hextends.renames] at hr
    exact (List.mem_append.1 hr).elim (ht.renames r) fun hr => (hextends.renamed r hr).1
  · rw [ht.rest]

/-- An equation that the state explains is promoted. -/
theorem ends_promote (hcovers : h.Covers σ) {x y z : Location} {field : Field}
    (ht : Tracks R σ q f) (hx : x.isRoot = true) (hxy : σ.Points x y)
    (hyz : σ.PointsBy y field z) :
    Ends (promote h (.known x, field, .known z)) f fun _ g =>
      (∃ R', Tracks R' σ q g) ∧ ∃ b more, f.store.heap.Extends (fun _ => True)
        [.root (.known x) b, .ofField b field (.known z)] more g.store.heap := by
  -- the object in the middle is among those that the facts give to the root
  have hmem : y ∈ h.ofPointer (.known x) :=
    (HeapGraph.mem_ofPointer_root hx).2 (hcovers.roots x y hx hxy)
  obtain ⟨o, R₁, hrun, hR, b, rfl, hb⟩ := R.gives_ofCandidates hmem
  unfold promote
  rw [ends_bind, ends_fresh, ht.heap.next, hrun]
  have ht₁ : Tracks R₁ σ q (f.supply R₁.next) :=
    ⟨⟨ht.heap.feasible, rfl, fun e he => (ht.heap.owed e he).mono hR⟩, ht.renames, ht.known,
      ht.rest⟩
  simp only [ends_bind]
  refine (ends_addEdge (e := .root (.known x) b) ht₁
    ⟨x, y, R₁.names_known x, hb, hxy⟩).mono fun caused g hg => ?_
  obtain ⟨⟨R₂, hR₂, ht₂, hagree⟩, hroot⟩ := hg
  refine ends_replay_of_known (ht₂.path_eq ▸ ht.known) (fun r hr => (hroot.renamed r hr).1) ?_
  -- the second edge is on what the object in the middle has become
  have hexplains : R₂.Explains σ ((Edge.ofField b field (.known z)).renameAll caused) :=
    Reading.Explains.renameAll ⟨y, z, hb.mono hR₂, R₂.names_known z, hyz⟩ hagree
  refine (ends_addEdge ht₂ hexplains).mono fun later g' hg' => ?_
  obtain ⟨⟨R₃, -, ht₃, -⟩, hfield⟩ := hg'
  refine ends_replay_of_known (ht₃.path_eq ▸ ht.known) (fun r hr => (hfield.renamed r hr).1) ?_
  refine ⟨⟨R₃, ht₃⟩, b, caused ++ later, hroot.trans [.ofField b field (.known z)] ?_⟩
  exact hfield

/-- Explained equations are promoted in turn, and those that were promoted stay represented. -/
theorem ends_promoteAll (hcovers : h.Covers σ) {equations : List (Pointer × Field × Pointer)}
    (ht : Tracks R σ q f) (he : ∀ e ∈ equations, σ.Explains e) :
    Ends (promoteAll h equations) f fun _ g => (∃ R', Tracks R' σ q g) ∧
      ∀ e, σ.Explains e → f.store.heap.Represents e ∨ e ∈ equations →
        g.store.heap.Represents e := by
  induction equations generalizing R f with
  | nil => exact ends_pure.2 ⟨⟨R, ht⟩, fun e _ h => h.resolve_right List.not_mem_nil⟩
  | cons e rest ih =>
    obtain ⟨base, field, objects⟩ := e
    obtain ⟨x, y, z, rfl, rfl, hx, hxy, hyz⟩ := he _ List.mem_cons_self
    unfold promoteAll
    rw [ends_bind]
    refine (ends_promote hcovers ht hx hxy hyz).mono fun _ g hg => ?_
    obtain ⟨⟨R', ht'⟩, b, more, hextends⟩ := hg
    refine (ih ht' fun d hd => he d (List.mem_cons_of_mem _ hd)).mono fun _ g' hg' => ?_
    refine ⟨hg'.1, fun d hd hrep => hg'.2 d hd ?_⟩
    obtain hrep | hmem := hrep
    · -- the edges of an equation promoted before are renamed together
      obtain ⟨base', field', objects'⟩ := d
      obtain ⟨x', y', z', rfl, rfl, -⟩ := hd
      obtain ⟨b', hroot, hfield⟩ := hrep
      exact .inl (hextends.represents rfl rfl (.inl hroot) (.inl hfield))
    · obtain rfl | hmem := List.mem_cons.1 hmem
      · exact .inl (hextends.represents rfl rfl (.inr List.mem_cons_self)
          (.inr (List.mem_cons_of_mem _ List.mem_cons_self)))
      · exact .inr hmem

/-! ## 5. Settling -/

/-- The last part of settling does not halt, since a realized query has no null conflict. -/
theorem Tracks.ends_conclude {Q : Unit → Frame Query → Prop} (ht : Tracks R σ q f)
    (halive : q.isAlive = true)
    (hpath : ∃ N, ∀ c ∈ q.path.constraints, c.MayHold (σ.Denotes N))
    (hQ : ∀ g : Frame Query, σ.Realizes g.store → g.store.path = q.path →
      g.store.heap.owed = f.store.heap.owed → Q () g) :
    Ends replayPending f fun _ g => Ends requireNoNullConflict g Q := by
  refine ends_replayPending_of_known (ht.path_eq ▸ ht.known) ht.renames ?_
  have hrealizes := ht.realizes halive hpath
  refine Results.ends (results_requireNoNullConflict (fun _ => ?_) fun p hp => ?_)
  · exact hQ _ hrealizes ht.path_eq rfl
  · cases hp.symm.trans hrealizes.nullConflict?_eq_none

theorem ends_settle (hcovers : h.Covers σ) (hq : σ.Realizes f.store)
    (ht : R.Tracks σ ⟨f.store.heap, f.session⟩)
    (hrenames : ∀ r ∈ f.store.heap.renames, r.1.isChoice = true)
    (hknown : ∀ c ∈ f.store.path.constraints, ∀ v ∈ c.paths, v.base.isChoice = false) :
    Ends (settle h) f fun _ g => σ.Realizes g.store ∧
      g.store.path.constraints =
        f.store.path.constraints.filter (PathM.siteEquality? · |>.isNone) ∧
      ∀ e ∈ f.store.path.constraints.filterMap PathM.siteEquality?,
        g.store.heap.Represents e := by
  obtain ⟨N, hpath⟩ := hq.path
  obtain ⟨hquery, hheap, hfeasible⟩ := Query.isAlive_iff.1 hq.alive
  unfold settle onPath
  simp only [ends_bind, ends_onPart]
  refine ends_replayPending_of_known (PathStore.within_iff.2 hknown) hrenames ?_
  refine PathM.results_takeSiteEqualities.ends.mono fun taken g hg => ?_
  obtain ⟨⟨journal, hsession⟩, rfl, hfeasible', hconstraints⟩ := hg
  -- the query when promotion starts: no rename is pending and the equations are taken out
  let q : Query := { f.store with heap := { f.store.heap with renames := [] }, path := g.store }
  have hkept : ∀ c ∈ q.path.constraints, c ∈ f.store.path.constraints := fun c hc =>
    (List.mem_filter.1 (hconstraints ▸ hc)).1
  have htracks : Tracks R σ q ⟨q, g.session⟩ :=
    { heap := ⟨ht.feasible, by rw [hsession]; exact ht.next, ht.owed⟩
      renames := fun r hr => by cases hr
      known := PathStore.within_iff.2 fun c hc => hknown c (hkept c hc)
      rest := rfl }
  have hexplains : ∀ e ∈ f.store.path.constraints.filterMap PathM.siteEquality?,
      σ.Explains e := by
    intro e he
    obtain ⟨c, hc, he⟩ := List.mem_filterMap.1 he
    exact (hpath c hc).explains (PathM.siteEquality?_iff.1 he) (hknown c hc)
  refine (ends_promoteAll hcovers htracks hexplains).mono fun _ g' hg' => ?_
  obtain ⟨⟨R', htracks'⟩, hrepresents⟩ := hg'
  refine htracks'.ends_conclude (Query.isAlive_iff.2 ⟨hquery, hheap, hfeasible'.trans hfeasible⟩)
    ⟨N, fun c hc => hpath c (hkept c hc)⟩ fun g'' hrealizes hpath' howed => ?_
  refine ⟨hrealizes, hpath' ▸ hconstraints, fun e he => ?_⟩
  obtain ⟨b, hroot, hfield⟩ := hrepresents e (hexplains e he) (.inr he)
  exact ⟨b, howed ▸ hroot, howed ▸ hfield⟩

/-- Settling a query that a state realizes does not halt, and the state realizes what comes of it.
The path store keeps all but the equations between a field of a frame location and allocated
objects, and two edges through one object represent each of these. The choices of the query are
well formed and numbered, only choices were renamed, and the path store has none. -/
theorem settle_promotes (hcovers : h.Covers σ) (hq : σ.Realizes f.store)
    (hformed : ∀ e ∈ f.store.heap.owed, e.source.isWellFormed = true ∧ e.sink.isWellFormed = true)
    (hnumbered : ∀ e ∈ f.store.heap.owed, ∀ n, n ∈ e.source.id? ∨ n ∈ e.sink.id? →
      n < f.session.nextId)
    (hrenames : ∀ r ∈ f.store.heap.renames, r.1.isChoice = true)
    (hknown : ∀ c ∈ f.store.path.constraints, ∀ v ∈ c.paths, v.base.isChoice = false) :
    ∃ g, settle h f = .ok () g ∧ σ.Realizes g.store ∧
      (∀ c, c ∈ g.store.path.constraints ↔ c ∈ f.store.path.constraints ∧
        ∀ base field objects, ¬ c.Equates base field objects) ∧
      ∀ c ∈ f.store.path.constraints, ∀ base field objects, c.Equates base field objects →
        ∃ b, .root base b ∈ g.store.heap.owed ∧
          .ofField b field objects ∈ g.store.heap.owed := by
  obtain ⟨R, hnext, hexplains⟩ := hq.heap.exists_reading hformed hnumbered
  have ht : R.Tracks σ ⟨f.store.heap, f.session⟩ :=
    ⟨(Query.isAlive_iff.1 hq.alive).2.1, hnext.symm, hexplains⟩
  obtain ⟨_, g, hrun, hrealizes, hconstraints, hrepresents⟩ :=
    ends_settle hcovers hq ht hrenames hknown
  refine ⟨g, hrun, hrealizes, fun c => ?_, fun c hc base field objects hequates => ?_⟩
  · rw [hconstraints, List.mem_filter, Option.isNone_iff_eq_none, PathM.siteEquality?_eq_none_iff]
  · exact hrepresents _ (List.mem_filterMap.2 ⟨c, hc, PathM.siteEquality?_iff.2 hequates⟩)

end QueryM

namespace SharedBase

def base : Location := .slot ⟨1⟩ 1

def item (n : UInt32) : AllocSite := ⟨n, "A", ⟨1⟩⟩

def left : Field := .named "A" "left"

def right : Field := .named "A" "right"

/-- Local 1 is an object of one of two sites, and those of the first lead to the third site. -/
def graph : HeapGraph where
  roots := [⟨base, [.site (item 1), .site (item 2)]⟩, ⟨.slot ⟨1⟩ 2, [.site (item 3)]⟩]
  edges := [⟨.site (item 1), left, .site (item 3)⟩, ⟨.site (item 1), right, .site (item 3)⟩]

def fields (x : Field) : Value := if x = left then .ref 1 else if x = right then .ref 1 else .int 0

theorem eq_of_fields {x : Field} {r : Ref} (h : fields x = .ref r) :
    (x = left ∨ x = right) ∧ r = 1 := by
  unfold fields at h
  split at h
  · cases h
    exact ⟨.inl (by assumption), rfl⟩
  · split at h
    · cases h
      exact ⟨.inr (by assumption), rfl⟩
    · cases h

theorem lt_of_null (_ : Field) (r : Ref) (h : Value.int 0 = .ref r) : r < 2 := by
  cases h

/-- Local 1 is an object of the first site, both of whose fields hold the object of local 2. -/
def state : State :=
  .pair base (.slot ⟨1⟩ 2) (item 1) (item 3) fields (fun _ => .int 0)
    (fun _ _ h => (eq_of_fields h).2 ▸ Nat.one_lt_two) lt_of_null

def candidates : Locations := .ofList [.site (item 1), .site (item 2)]

def leftEquation : Constraint := ⟨.read (.known base) left, .eq, .bare (.site (item 3)), ⟨0⟩⟩

def rightEquation : Constraint := ⟨.bare (.site (item 3)), .eq, .read (.known base) right, ⟨1⟩⟩

def notNull : Constraint := ⟨.bare (.known base), .ne, .const 0, ⟨2⟩⟩

/-- Local 1 is owed an object already, and a rename is pending. -/
def frame : Frame Query where
  store :=
    { heap :=
        { owed := .ofList [.root (.known base) (.choice 0 candidates)]
          renames := [(.choice 1 candidates, .choice 0 candidates)] }
      path := { constraints := [leftEquation, rightEquation, notNull] } }
  session := { nextId := 2 }

theorem covers_state : graph.Covers state := by
  refine HeapGraph.covers_pair (by decide) (by decide) (fun x r h => ?_) fun x r h => by cases h
  obtain ⟨rfl | rfl, rfl⟩ := eq_of_fields h <;> decide

theorem realizes_state : state.Realizes frame.store where
  alive := rfl
  heap := by
    refine ⟨fun _ => .site (item 1), fun e he => ?_⟩
    rw [List.mem_singleton.1 (SortedSet.mem_ofList.1 he)]
    exact ⟨by decide, by decide, 0, rfl, _, rfl, rfl⟩
  path := by
    refine ⟨⟨fun _ => 0, fun _ => base, fun _ => 0⟩, fun c hc => ?_⟩
    have hsite : state.At 1 (.site (item 3)) := ⟨_, rfl, rfl⟩
    have hread : ∀ x, x = left ∨ x = right →
        state.Denotes ⟨fun _ => 0, fun _ => base, fun _ => 0⟩ ⟨.known base, [x]⟩ (.ref 1) := by
      rintro x (rfl | rfl) <;> exact ⟨.ref 0, rfl, by decide⟩
    obtain rfl | hc := List.mem_cons.1 hc
    · exact ⟨.ref 1, .ref 1, hread left (.inl rfl), ⟨.ref 1, ⟨1, rfl, hsite⟩, rfl⟩, by decide⟩
    · obtain rfl | hc := List.mem_cons.1 hc
      · exact ⟨.ref 1, .ref 1, ⟨.ref 1, ⟨1, rfl, hsite⟩, rfl⟩, hread right (.inr rfl), by decide⟩
      · rw [List.mem_singleton.1 hc]
        exact ⟨.ref 0, .int 0, ⟨.ref 0, rfl, rfl⟩, rfl, by decide⟩

/-- Both equations leave the path store, and each leads through an object of local 1 to the third
site. -/
theorem settle_promotes_both :
    state.Realizes frame.store ∧ ∃ g, QueryM.settle graph frame = .ok () g ∧
      state.Realizes g.store ∧ (∀ c, c ∈ g.store.path.constraints ↔ c = notNull) ∧
      (∃ b, .root (.known base) b ∈ g.store.heap.owed ∧
        .ofField b left (.site (item 3)) ∈ g.store.heap.owed) ∧
      ∃ b, .root (.known base) b ∈ g.store.heap.owed ∧
        .ofField b right (.site (item 3)) ∈ g.store.heap.owed := by
  have hleft : leftEquation.Equates (.known base) left (.site (item 3)) :=
    ⟨rfl, rfl, rfl, by decide, .inl ⟨rfl, rfl⟩⟩
  have hright : rightEquation.Equates (.known base) right (.site (item 3)) :=
    ⟨rfl, rfl, rfl, by decide, .inr ⟨rfl, rfl⟩⟩
  have howed : ∀ e ∈ frame.store.heap.owed, e = .root (.known base) (.choice 0 candidates) :=
    fun e he => List.mem_singleton.1 (SortedSet.mem_ofList.1 he)
  obtain ⟨g, hrun, hrealizes, hkept, hrepresents⟩ :=
    QueryM.settle_promotes covers_state realizes_state
      (fun e he => by rw [howed e he]; exact ⟨rfl, by decide⟩)
      (fun e he n hn => by
        rw [howed e he] at hn
        obtain hn | hn := hn <;> cases hn
        decide)
      (by decide) (by decide)
  refine ⟨realizes_state, g, hrun, hrealizes, fun c => ?_,
    hrepresents leftEquation (by decide) _ _ _ hleft,
    hrepresents rightEquation (by decide) _ _ _ hright⟩
  rw [hkept]
  constructor
  · rintro ⟨hc, hnot⟩
    obtain rfl | hc := List.mem_cons.1 hc
    · exact absurd hleft (hnot _ _ _)
    · obtain rfl | hc := List.mem_cons.1 hc
      · exact absurd hright (hnot _ _ _)
      · exact List.mem_singleton.1 hc
  · rintro rfl
    exact ⟨by decide, fun _ _ _ h => by cases h.op⟩

end SharedBase

end Refuter
