import Refuter.Proofs.Heap.Application

/-!
# Instructions on a heap store

The rule derived for an instruction follows the reference that the instruction moves: if the
written root holds an object afterwards, the rule produces it and its premises hold before. So a
visit never refutes a store that a state after the instruction satisfies, and the state before
satisfies what the store becomes.
-/

namespace Refuter

open StoreM

/-! ## 1. Derived rules -/

namespace Rule

variable {R : Reading} {σ : State} {h : HeapGraph} {m : MethodId} {t : Location}

/-- The rule is about an edge on the root `t`. -/
def Writes (t : Option Location) (r : Rule) : Prop :=
  ∃ x y, t = some x ∧ r.shown = .root (.known x) y

/-- The premises on roots are on the given ones. -/
def PremisesOn (r : Rule) (roots : List Location) : Prop :=
  ∀ d ∈ r.premises, d.source.isUnique = true → ∃ x ∈ roots, d.source = .known x

theorem gives_copy {source y : Location} (hc : h.Covers σ) (hs : source.isRoot = true)
    (hy : σ.Points source y) :
    R.Gives (copy h m t source) fun o R' =>
      ∃ r, o = some r ∧ R'.Produces σ t y r ∧ r.PremisesOn [source] := by
  unfold copy
  refine (Reading.gives_ofCandidates (hc.roots source y hs hy)).bind fun o R' _ ho => ?_
  obtain ⟨x, rfl, hx⟩ := ho
  refine Reading.gives_pure ⟨_, rfl, ⟨rfl, hx, fun e he => ?_⟩, fun e he _ => ?_⟩
  · obtain rfl := List.mem_singleton.1 he
    exact ⟨source, y, R'.names_known source, hx, hy⟩
  · obtain rfl := List.mem_singleton.1 he
    exact ⟨source, List.mem_singleton.2 rfl, rfl⟩

theorem gives_read {base y : Location} {field : Field} {q p : Ref} {b : Object}
    (hc : h.Covers σ) (hs : base.isRoot = true) (hq : σ.root base = .ref q)
    (hb : σ.heap q = some b) (hf : b.Holds field (.ref p)) (hy : σ.At p y) :
    R.Gives (read h m t base field) fun o R' =>
      ∃ r, o = some r ∧ R'.Produces σ t y r ∧ r.PremisesOn [base] := by
  have hbase : σ.Points base (.site b.site) := ⟨q, hq, b, hb, rfl⟩
  have hfield : σ.PointsBy (.site b.site) field y := ⟨q, b, p, hb, rfl, hf, hy⟩
  have hmem : .site b.site ∈ h.ofRoot base := hc.roots base _ hs hbase
  have hsink : y ∈ SortedSet.bind (h.ofRoot base).toList (h.pointsTo · field) :=
    SortedSet.mem_bind.2 ⟨_, hmem, hc.fields _ field y hfield⟩
  unfold read
  refine (Reading.gives_ofCandidates hmem).bind fun o R1 _ ho => ?_
  obtain ⟨x, rfl, hx⟩ := ho
  refine (Reading.gives_ofCandidates hsink).bind fun o R2 hR2 ho => ?_
  obtain ⟨z, rfl, hz⟩ := ho
  have hx2 : R2.Names x (.site b.site) := hx.mono hR2
  refine Reading.gives_pure ⟨_, rfl, ⟨rfl, hz, fun e he => ?_⟩, fun e he hu => ?_⟩
  · obtain rfl | he := List.mem_cons.1 he
    · exact ⟨base, _, R2.names_known base, hx2, hbase⟩
    · obtain rfl := List.mem_singleton.1 he
      exact ⟨_, y, hx2, hz, hfield⟩
  · obtain rfl | he := List.mem_cons.1 he
    · exact ⟨base, List.mem_singleton.2 rfl, rfl⟩
    · -- the base object is known by its site only
      obtain rfl := List.mem_singleton.1 he
      have hnot : x.isUnique = true := hu
      rw [hx2.isUnique_eq_false] at hnot
      cases hnot

theorem gives_copy_writes {source : Location} :
    R.Gives (copy h m t source) fun o _ => ∀ r ∈ o, r.Writes (some t) := by
  unfold copy
  refine Reading.gives_ofCandidates_any.bind fun o R' _ _ => ?_
  cases o with
  | none => exact Reading.gives_pure fun r hr => by cases hr
  | some x =>
    refine Reading.gives_pure fun r hr => ?_
    cases hr
    exact ⟨t, x, rfl, rfl⟩

theorem gives_read_writes {base : Location} {field : Field} :
    R.Gives (read h m t base field) fun o _ => ∀ r ∈ o, r.Writes (some t) := by
  unfold read
  refine Reading.gives_ofCandidates_any.bind fun o R' _ _ => ?_
  cases o with
  | none => exact Reading.gives_pure fun r hr => by cases hr
  | some b =>
    refine Reading.gives_ofCandidates_any.bind fun o R' _ _ => ?_
    cases o with
    | none => exact Reading.gives_pure fun r hr => by cases hr
    | some x =>
      refine Reading.gives_pure fun r hr => ?_
      cases hr
      exact ⟨t, x, rfl, rfl⟩

/-- A derived rule is about the root that the instruction writes. -/
theorem gives_derive?_writes {site : Site} {i : Instruction} (hi : i.writesHeap = false) :
    R.Gives (derive? h site i) fun o _ => ∀ r ∈ o, r.Writes (i.written? site.method) := by
  have hnone : R.Gives (pure none) fun o _ => ∀ r ∈ o, Writes (i.written? site.method) r :=
    Reading.gives_pure fun r hr => by cases hr
  cases i with
  | new d s | newArray d s _ =>
    refine Reading.gives_pure fun r hr => ?_
    cases hr
    exact ⟨_, _, rfl, rfl⟩
  | assign d v | checkCast d v | staticStore d v =>
    cases v with
    | slot => exact gives_copy_writes
    | const | null => exact hnone
  | staticLoad => exact gives_copy_writes
  | load | arrayLoad => exact gives_read_writes
  | store | arrayStore => cases hi
  | arrayLength | binary | unary | compare | conversion | instanceOf | metadata | branch | switch
  | invoke | ret | nop => exact hnone

/-- If the written root holds an object afterwards, the derived rule produces it. -/
theorem gives_derive?_produces {site : Site} {i : Instruction} {σ' : State} {y : Location}
    (hi : i.writesHeap = false) (hret : ∀ v, i ≠ .ret v) (hmeta : ∀ l, i ≠ .metadata l)
    (hc : h.Covers σ) (he : σ.Executes site i σ') (ht : i.written? site.method = some t)
    (hy : σ'.Points t y) :
    R.Gives (derive? h site i) fun o R' =>
      ∃ r, o = some r ∧ R'.Produces σ t y r ∧ r.PremisesOn (i.read site.method) := by
  cases i with
  | new d s | newArray d s _ =>
    cases ht
    obtain rfl := he.points_self hy
    refine Reading.gives_pure ⟨_, rfl, ⟨rfl, R.names_known _, fun e he => ?_⟩, fun e he _ => ?_⟩
    · cases he
    · cases he
  | assign d v | checkCast d v | staticStore d v =>
    cases ht
    cases v with
    | slot => exact gives_copy hc rfl (he.points_of_root hy)
    | const | null => exact absurd hy he.int_not_points
  | staticLoad =>
    cases ht
    exact gives_copy hc rfl (he.points_of_root hy)
  | load d base field =>
    cases ht
    obtain ⟨q, b, hq, hb, he⟩ := he
    obtain ⟨p, hp, hy⟩ := he.points_self hy
    exact gives_read hc rfl hq hb (.inl hp) hy
  | arrayLoad d array index =>
    cases ht
    obtain ⟨q, b, n, hq, hb, -, he⟩ := he
    obtain ⟨p, hp, hy⟩ := he.points_self hy
    refine (gives_read hc rfl hq hb (.inr ⟨rfl, n, hp⟩) hy).mono fun o R' _ ho => ?_
    obtain ⟨r, rfl, hr, hon⟩ := ho
    refine ⟨r, rfl, hr, fun e he hu => ?_⟩
    obtain ⟨x, hx, hsource⟩ := hon e he hu
    obtain rfl := List.mem_singleton.1 hx
    exact ⟨_, List.mem_cons_self, hsource⟩
  | arrayLength | binary | unary | compare | conversion | instanceOf =>
    cases ht
    obtain ⟨n, he⟩ := he
    exact absurd hy he.int_not_points
  | metadata l => exact absurd rfl (hmeta l)
  | ret v => exact absurd rfl (hret v)
  | branch | switch | nop => cases ht
  | store | arrayStore => cases hi
  | invoke => exact he.elim

end Rule

/-! ## 2. Stores on roots -/

/-- Root edges are on locals, return slots and static fields, at most one on each. Every choice has
two candidates or more, and its number is below `next`. -/
structure HeapStore.Regular (s : HeapStore) (next : Nat) : Prop where
  onRoot : ∀ e ∈ s.owed, e.field = none → ∃ x, x.isRoot = true ∧ e.source = .known x
  onePerRoot : ∀ e ∈ s.owed, ∀ d ∈ s.owed,
    e.field = none → d.field = none → e.source = d.source → e = d
  wellFormed : ∀ e ∈ s.owed, e.source.isWellFormed = true ∧ e.sink.isWellFormed = true
  numbered : ∀ e ∈ s.owed, ∀ n, n ∈ e.source.id? ∨ n ∈ e.sink.id? → n < next

namespace HeapStore.Regular

variable {s : HeapStore} {next : Nat} {σ σ' : State} {R : Reading} {d : Edge} {t : Location}

theorem exists_reading (hs : s.Regular next) (h : σ.Satisfies s) :
    ∃ R : Reading, R.next = next ∧ ∀ e ∈ s.owed, R.Explains σ e :=
  h.exists_reading hs.wellFormed hs.numbered

theorem avoids (hs : s.Regular next) (hd : d ∈ s.owed)
    (hne : d.field = none → d.source ≠ .known t) : d.Avoids t := by
  intro hf ht
  obtain ⟨x, -, hx⟩ := hs.onRoot d hd hf
  rw [hx] at ht
  obtain rfl : t = x := SortedSet.mem_singleton.1 ht
  exact hne hf hx

/-- An edge that is not on the written root held before. -/
theorem explains_before {w : Option Location} (hs : s.Regular next) (hd : d ∈ s.owed)
    (hw : σ.AgreesOff σ' w) (h : R.Explains σ' d)
    (hne : d.field = none → ∀ t, w = some t → d.source ≠ .known t) : R.Explains σ d := by
  obtain ⟨x, y, hx, hy, hshows⟩ := h
  refine ⟨x, y, hx, hy, ?_⟩
  cases hf : d.field with
  | some f =>
    rw [hf] at hshows
    exact hw.pointsBy x f y hshows
  | none =>
    rw [hf] at hshows
    obtain ⟨z, -, hz⟩ := hs.onRoot d hd hf
    rw [hz] at hx
    obtain rfl := hx.known_eq
    exact hw.points z y (fun hwz => hne hf z hwz hz) hshows

end HeapStore.Regular

/-- No produced edge is on a root that the instruction reads or writes. -/
def HeapStore.LogAvoids (s : HeapStore) (m : MethodId) (i : Instruction) : Prop :=
  ∀ e ∈ s.produced, ∀ x, x ∈ i.read m ∨ i.written? m = some x → e.source ≠ .known x

/-- The instruction takes `σ` to `σ'`, writes no object, and the store is tracked in `σ'`. -/
structure Reading.Meets (R : Reading) (σ σ' : State) (site : Site) (i : Instruction)
    (f : Frame HeapStore) : Prop where
  executes : σ.Executes site i σ'
  writesHeap : i.writesHeap = false
  tracks : R.Tracks σ' f
  regular : f.store.Regular R.next
  log : f.store.LogAvoids site.method i

/-! ## 3. Visits -/

namespace HeapM

/-- A visit with the rule that the points-to facts give for the instruction. -/
def visitDerived (h : HeapGraph) (site : Site) (i : Instruction) : HeapM (List HeapStore) := do
  visit h site i (← fresh (Rule.derive h site i))

variable {R : Reading} {σ σ' : State} {h : HeapGraph} {site : Site} {i : Instruction}
  {f : Frame HeapStore}

theorem visit_eq_dispatch {rules : List Rule} (hret : ∀ v, i ≠ .ret v) :
    visit h site i rules = (do
      requireFeasible
      let s ← store
      dispatch h site i (rules.filter s.isRuleRelevant)) := by
  cases i with
  | ret v => exact absurd rfl (hret v)
  | _ => rfl

/-- A rule is relevant if its root was owed or produced an edge. -/
theorem isRuleRelevant_of_mem {s : HeapStore} {r : Rule} {o : Edge} {t : Location}
    (ho : o ∈ s.owed.toList ++ s.produced) (hsource : o.source = .known t)
    (hr : r.shown.source = .known t) :
    s.isRuleRelevant r = true := by
  have hover : r.shown.source.overlaps o.source = true := by
    rw [hr, hsource]
    exact decide_eq_true (SortedSet.mem_singleton.2 rfl)
  unfold HeapStore.isRuleRelevant
  refine List.any_eq_true.2 ⟨o, ho, ?_⟩
  refine List.any_eq_true.2 ⟨r.shown.source, List.mem_cons_self, ?_⟩
  rw [hover]
  rfl

/-- An instruction whose written root is owed an object applies its rule. -/
theorem ends_visitDerived_of_owed {t : Location} {o : Edge} (hm : R.Meets σ σ' site i f)
    (hret : ∀ v, i ≠ .ret v) (hmeta : ∀ l, i ≠ .metadata l) (hc : h.Covers σ)
    (ht : i.written? site.method = some t) (ho : o ∈ f.store.owed) (hfield : o.field = none)
    (hsource : o.source = .known t) :
    Ends (visitDerived h site i) f fun rest g => rest = [] ∧ ∃ R' : Reading, R'.Tracks σ g := by
  have hs := hm.regular
  have hroot : t.isRoot = true := by
    obtain ⟨x, hx, hox⟩ := hs.onRoot o ho hfield
    rw [hsource] at hox
    cases hox
    exact hx
  have hshown : o = .root (.known t) o.sink := by
    rw [← hsource]
    unfold Edge.root
    rw [← hfield]
  obtain ⟨x, y, hx, hy, hpoints⟩ := hm.tracks.owed o ho
  rw [hsource] at hx
  obtain rfl := hx.known_eq
  rw [hfield] at hpoints
  -- the other owed edges are not on the written root, so they held before
  have hawaits : R.Awaits σ t y f.store o := by
    refine ⟨ho, hshown, hy, fun d hd hne => ?_⟩
    have hoff : d.field = none → d.source ≠ .known t := fun hdf hds =>
      hne (hs.onePerRoot d hd o ho hdf hfield (hds.trans hsource.symm))
    have hagree := hm.executes.agreesOff hm.writesHeap
    refine ⟨hs.explains_before hd hagree (hm.tracks.owed d hd) fun hdf z hz => ?_,
      hs.avoids hd hoff⟩
    rw [ht] at hz
    cases hz
    exact hoff hdf
  obtain ⟨-, R', hderive, hR, r, rfl, hr, hon⟩ :=
    Rule.gives_derive?_produces (R := R) hm.writesHeap hret hmeta hc hm.executes ht hpoints
  obtain ⟨q, hq, b, hb, rfl⟩ := hpoints
  unfold visitDerived Rule.derive
  rw [ends_bind, ends_fresh, Fresh.bind_apply, hm.tracks.next, hderive, Fresh.pure_apply,
    visit_eq_dispatch hret, ends_bind]
  refine ends_requireFeasible hm.tracks.feasible ?_
  have hrelevant := isRuleRelevant_of_mem (List.mem_append_left _ ho) hsource hr.source_eq
  simp only [Option.toList_some, ends_bind, ends_store, Frame.supply_store, List.filter_cons,
    hrelevant, if_true, List.filter_nil]
  refine ends_dispatch_of_awaits (f := f.supply R'.next) hc hroot hm.tracks.feasible rfl hr
    (hawaits.mono hR) (fun e he => hm.log e he t (.inr ht)) fun e he d hd hu => ?_
  obtain ⟨z, hz, hdz⟩ := hon d hd hu
  rw [hdz]
  exact hm.log e he z (.inl hz)

theorem written?_of_target? {m : MethodId} {l : Local} (h : i.target? = some l) :
    i.written? m = some (.slot m l) := by
  cases i <;> cases h <;> rfl

/-- An instruction whose written root is owed nothing, or that has no model, applies no rule. -/
theorem ends_visitDerived_of_not_owed (hm : R.Meets σ σ' site i f) (hret : ∀ v, i ≠ .ret v)
    (hno : (∃ l, i = .metadata l) ∨ ∀ t, i.written? site.method = some t →
      ∀ o ∈ f.store.owed, o.field = none → o.source ≠ .known t) :
    Ends (visitDerived h site i) f fun rest g => rest = [] ∧ ∃ R' : Reading, R'.Tracks σ g := by
  have hs := hm.regular
  obtain ⟨o, R', hderive, hR, hwrites⟩ : R.Gives (Rule.derive? h site i) fun o _ =>
      ∀ r ∈ o, Rule.Writes (i.written? site.method) r := Rule.gives_derive?_writes hm.writesHeap
  have hrules : ∀ r ∈ o.toList.filter f.store.isRuleRelevant, ∃ t x,
      r.shown = .root (.known t) x ∧ (∀ d ∈ f.store.owed, d.Avoids t) ∧
        ∀ e ∈ f.store.produced, e.source ≠ .known t := by
    intro r hr
    obtain ⟨hr, -⟩ := List.mem_filter.1 hr
    obtain ⟨t, x, ht, hshown⟩ := hwrites r (Option.mem_toList.1 hr)
    obtain ⟨l, rfl⟩ | hno := hno
    · -- there is no rule for metadata
      obtain rfl : none = o := congrArg Prod.fst hderive
      cases hr
    · exact ⟨t, x, hshown, fun d hd => hs.avoids hd (hno t ht d hd),
        fun e he => hm.log e he t (.inr ht)⟩
  have hexp : ∀ d ∈ f.store.owed, R'.Explains σ d ∨
      ∃ l, i = .metadata l ∧ d.field = none ∧ d.source = .slot site.method l := by
    intro d hd
    by_cases hon : d.field = none ∧ ∃ t, i.written? site.method = some t ∧ d.source = .known t
    · obtain ⟨hdf, t, ht, hdt⟩ := hon
      obtain ⟨l, rfl⟩ | hno := hno
      · cases ht
        exact .inr ⟨l, rfl, hdf, hdt⟩
      · exact absurd hdt (hno t ht d hd hdf)
    · have hagree := hm.executes.agreesOff hm.writesHeap
      refine .inl (.mono ?_ hR)
      exact hs.explains_before hd hagree (hm.tracks.owed d hd) fun hdf t ht hdt =>
        hon ⟨hdf, t, ht, hdt⟩
  have hroots : ∀ l, i.target? = some l → mustProduce i = true →
      rootEdges f.store (.slot site.method l) = [] := by
    intro l hl hmust
    obtain ⟨k, rfl⟩ | hno := hno
    · cases hmust
    · refine List.eq_nil_iff_forall_not_mem.2 fun d hd => ?_
      obtain ⟨hd, hdf, hdl⟩ := mem_rootEdges.1 hd
      exact hno _ (written?_of_target? hl) d hd hdf hdl
  unfold visitDerived Rule.derive
  rw [ends_bind, ends_fresh, Fresh.bind_apply, hm.tracks.next, hderive, Fresh.pure_apply,
    visit_eq_dispatch hret, ends_bind]
  refine ends_requireFeasible hm.tracks.feasible ?_
  rw [ends_bind, ends_store]
  exact ends_dispatch_of_avoids (f := f.supply R'.next) hm.tracks.feasible rfl hrules hexp hroots

/-- Edges on the return slot: there is one at most, and it is a root edge. -/
theorem edgesOf_result (site : Site) (hs : f.store.Regular R.next)
    (hexp : ∀ e ∈ f.store.owed, R.Explains σ' e) :
    (∀ e ∈ f.store.owed, e.source ≠ .result site.method) ∨
      ∃ e ∈ f.store.owed, edgesOf f.store (.result site.method) = [e] ∧ e.field = none ∧
        e.source = .result site.method := by
  have hroot : ∀ e ∈ edgesOf f.store (.result site.method),
      e ∈ f.store.owed ∧ e.field = none ∧ e.source = .result site.method := by
    intro e he
    obtain ⟨he, hsource⟩ := List.mem_filter.1 he
    have hsource : e.source = .result site.method := of_decide_eq_true hsource
    obtain ⟨-, -, -, hfield, -⟩ := (hexp e he).root_of_isUnique (by rw [hsource]; rfl)
    exact ⟨he, hfield, hsource⟩
  have hnodup : (edgesOf f.store (.result site.method)).Nodup :=
    f.store.owed.nodup_toList.filter _
  cases hl : edgesOf f.store (.result site.method) with
  | nil =>
    refine .inl fun e he hsource => ?_
    have hmem : e ∈ edgesOf f.store (.result site.method) :=
      List.mem_filter.2 ⟨he, decide_eq_true hsource⟩
    rw [hl] at hmem
    cases hmem
  | cons e rest =>
    rw [hl] at hroot hnodup
    obtain ⟨he, hfield, hsource⟩ := hroot e List.mem_cons_self
    refine .inr ⟨e, he, ?_, hfield, hsource⟩
    cases rest with
    | nil => rfl
    | cons d rest =>
      obtain ⟨hd, hfield', hsource'⟩ := hroot d (List.mem_cons_of_mem _ List.mem_cons_self)
      have heq := hs.onePerRoot e he d hd hfield hfield' (hsource.trans hsource'.symm)
      rw [heq] at hnodup
      exact absurd List.mem_cons_self (List.nodup_cons.1 hnodup).1

/-- A return slot that holds an object took it from a local. -/
theorem returned_local {v : Option Operand} {y : Location}
    (he : σ.Executes site (.ret v) σ') (hy : σ'.Points (.result site.method) y) :
    ∃ l, v = some (.slot l) ∧ σ.Points (.slot site.method l) y := by
  match v, he with
  | none, he =>
    obtain ⟨_, he⟩ := he
    exact absurd hy he.int_not_points
  | some (.const _), he | some .null, he => exact absurd hy (State.Assigns.int_not_points he)
  | some (.slot l), he => exact ⟨l, rfl, State.Assigns.points_of_root he hy⟩

/-- What the return slot owes is owed by the returned local. -/
theorem ends_visitReturn {v : Option Operand} (hm : R.Meets σ σ' site (.ret v) f) :
    Ends (visitReturn site v) f fun _ g => ∃ R' : Reading, R'.Tracks σ g := by
  have hs := hm.regular
  have hagree := hm.executes.agreesOff hm.writesHeap
  have hbefore : ∀ d ∈ f.store.owed, d.source ≠ .result site.method → R.Explains σ d := by
    intro d hd hne
    refine hs.explains_before hd hagree (hm.tracks.owed d hd) fun _ t ht => ?_
    cases ht
    exact hne
  unfold visitReturn
  rw [ends_bind, ends_store]
  obtain hnone | ⟨e, he, hmoving, hfield, hsource⟩ := edgesOf_result site hs hm.tracks.owed
  · have hnil : edgesOf f.store (.result site.method) = [] := by
      refine List.filter_eq_nil_iff.2 fun d hd => ?_
      simpa using hnone d hd
    rw [hnil]
    refine ends_pure.2 ⟨R, hm.tracks.feasible, hm.tracks.next, fun d hd => ?_⟩
    exact hbefore d hd (hnone d hd)
  · obtain ⟨x, y, hx, hy, hpoints⟩ := hm.tracks.owed e he
    rw [hsource] at hx
    obtain rfl := hx.known_eq
    rw [hfield] at hpoints
    obtain ⟨l, rfl, hpoints⟩ := returned_local hm.executes hpoints
    rw [hmoving]
    change Ends (moveEdges _ (.slot site.method l) [e]) f _
    unfold moveEdges
    rw [ends_bind]
    have hothers : ∀ d ∈ f.store.owed, d ≠ e → R.Explains σ d := by
      intro d hd hne
      refine hbefore d hd fun hds => hne ?_
      have hmem : d ∈ edgesOf f.store (.result site.method) :=
        List.mem_filter.2 ⟨hd, decide_eq_true hds⟩
      rw [hmoving] at hmem
      exact List.mem_singleton.1 hmem
    refine (ends_discharge hm.tracks.feasible hm.tracks.next hothers).mono fun _ g ht => ?_
    have hmoved : R.Explains σ (e.rename (.result site.method) (.slot site.method l)) := by
      refine ⟨.slot site.method l, y, ?_, ?_, ?_⟩
      · show R.Names (Pointer.rename _ _ e.source) _
        rw [hsource, Pointer.rename_self]
        exact R.names_known _
      · -- the sink stands for a site, so it is not the return slot
        obtain ⟨-, -, b, -, rfl⟩ := hpoints
        have hsink : e.sink ≠ .result site.method := by
          intro hsink
          rw [hsink] at hy
          cases hy.known_eq
        show R.Names (Pointer.rename _ _ e.sink) _
        rw [Pointer.rename_of_ne hsink]
        exact hy
      · show σ.Shows _ e.field _
        rw [hfield]
        exact hpoints
    rw [ends_bind]
    refine (ends_addEdge ht hmoved).mono fun _ g' hg' => ?_
    obtain ⟨R', -, ht', -⟩ := hg'
    exact ends_pure.2 ⟨R', ht'⟩

theorem ends_visitDerived_of_ret {v : Option Operand} (hm : R.Meets σ σ' site (.ret v) f) :
    Ends (visitDerived h site (.ret v)) f fun rest g =>
      rest = [] ∧ ∃ R' : Reading, R'.Tracks σ g := by
  unfold visitDerived visit
  rw [ends_bind, ends_fresh, ends_bind]
  refine ends_requireFeasible hm.tracks.feasible ?_
  rw [ends_bind]
  have hm' : R.Meets σ σ' site (.ret v) (f.supply f.session.nextId) := hm
  exact (ends_visitReturn hm').mono fun _ g ht => ends_pure.2 ⟨rfl, ht⟩

/-- A visit of a store that the state after the instruction satisfies does not refute it, and the
state before satisfies one of the stores that come of it. -/
theorem visitDerived_satisfies (h : HeapGraph) (site : Site) (i : Instruction) (σ σ' : State)
    (f : Frame HeapStore) (hi : i.writesHeap = false) (hc : h.Covers σ)
    (he : σ.Executes site i σ') (hf : f.store.feasible = true)
    (hs : f.store.Regular f.session.nextId) (hlog : f.store.LogAvoids site.method i)
    (hsat : σ'.Satisfies f.store) :
    ∃ rest g, visitDerived h site i f = .ok rest g ∧
      ∃ s ∈ g.store :: rest, s.feasible = true ∧ σ.Satisfies s := by
  obtain ⟨R, hn, hexp⟩ := hs.exists_reading hsat
  have hm : R.Meets σ σ' site i f := ⟨he, hi, ⟨hf, hn.symm, hexp⟩, hn ▸ hs, hlog⟩
  suffices hends : Ends (visitDerived h site i) f fun rest g =>
      rest = [] ∧ ∃ R' : Reading, R'.Tracks σ g by
    obtain ⟨rest, g, hok, -, R', ht⟩ := hends
    exact ⟨rest, g, hok, g.store, List.mem_cons_self, ht.feasible, ht.satisfies⟩
  by_cases hret : ∃ v, i = .ret v
  · obtain ⟨v, rfl⟩ := hret
    exact ends_visitDerived_of_ret hm
  have hret : ∀ v, i ≠ .ret v := fun v hv => hret ⟨v, hv⟩
  by_cases hmeta : ∃ l, i = .metadata l
  · exact ends_visitDerived_of_not_owed hm hret (.inl hmeta)
  have hmeta : ∀ l, i ≠ .metadata l := fun l hl => hmeta ⟨l, hl⟩
  by_cases howed : ∃ t, i.written? site.method = some t ∧
      ∃ o ∈ f.store.owed, o.field = none ∧ o.source = .known t
  · obtain ⟨t, ht, o, ho, hfield, hsource⟩ := howed
    exact ends_visitDerived_of_owed hm hret hmeta hc ht ho hfield hsource
  · refine ends_visitDerived_of_not_owed hm hret (.inr fun t ht o ho hfield hsource => ?_)
    exact howed ⟨t, ht, o, ho, hfield, hsource⟩

end HeapM

namespace LoadCase

def site : Site := ⟨⟨0⟩, false⟩

def box : AllocSite := ⟨1, "Box", ⟨0⟩⟩

def small : AllocSite := ⟨2, "Item", ⟨0⟩⟩

def large : AllocSite := ⟨3, "Item", ⟨0⟩⟩

def item : Field := .named "Box" "item"

/-- Local 1 holds a box whose item is one of two; local 3 holds the item. -/
def graph : HeapGraph where
  roots := [⟨.slot ⟨0⟩ 1, [.site box]⟩, ⟨.slot ⟨0⟩ 3, [.site small]⟩]
  edges := [⟨.site box, item, .site small⟩, ⟨.site box, item, .site large⟩]

/-- Local 2 owes one of the two items. -/
def frame : Frame HeapStore where
  store :=
    { owed := .singleton
        (.root (.slot ⟨0⟩ 2) (.choice 0 (.ofList [.site small, .site large]))) }
  session := { nextId := 1 }

def before : State :=
  .pair (.slot ⟨0⟩ 1) (.slot ⟨0⟩ 3) box small (fun f => if f = item then .ref 1 else .int 0)
    (fun _ => .int 0) (by intro f r h; split at h <;> cases h; decide) (by intro f r h; cases h)

def after : State := before.assign (.slot ⟨0⟩ 2) (.ref 1) (by intro r h; cases h; rfl)

theorem covers_before : graph.Covers before := by
  refine HeapGraph.covers_pair ?_ ?_ (fun f r h => ?_) (fun f r h => by cases h)
  · decide
  · decide
  · split at h
    · cases h
      subst_vars
      decide
    · cases h

theorem executes_load : before.Executes site (.load 2 1 item) after := by
  have hitem : (Object.ofFields box fun f => if f = item then .ref 1 else .int 0).field item =
      .ref 1 := by
    show (if item = item then Value.ref 1 else .int 0) = .ref 1
    exact if_pos rfl
  refine ⟨0, _, rfl, rfl, ?_⟩
  rw [hitem]
  exact State.assigns_assign

theorem regular_frame : frame.store.Regular frame.session.nextId := by
  have hmem : ∀ e ∈ frame.store.owed,
      e = .root (.slot ⟨0⟩ 2) (.choice 0 (.ofList [.site small, .site large])) := fun e he =>
    SortedSet.mem_singleton.1 he
  refine ⟨fun e he _ => ?_, fun e he d hd _ _ _ => ?_, fun e he => ?_, fun e he n hn => ?_⟩
  · exact ⟨.slot ⟨0⟩ 2, rfl, by rw [hmem e he]; rfl⟩
  · rw [hmem e he, hmem d hd]
  · rw [hmem e he]
    exact ⟨rfl, by decide⟩
  · rw [hmem e he] at hn
    obtain hn | hn := hn
    · cases hn
    · cases hn
      decide

theorem satisfies_after : after.Satisfies frame.store := by
  refine ⟨fun _ => .site small, fun e he => ?_⟩
  rw [SortedSet.mem_singleton.1 he]
  exact ⟨by decide, by decide, 1, rfl, _, rfl, rfl⟩

/-- The visit owes the box in local 1 and its item instead. -/
theorem visitDerived_satisfies_load :
    after.Satisfies frame.store ∧
      ∃ rest g, HeapM.visitDerived graph site (.load 2 1 item) frame = .ok rest g ∧
        ∃ s ∈ g.store :: rest, s.feasible = true ∧ before.Satisfies s :=
  ⟨satisfies_after, HeapM.visitDerived_satisfies graph site (.load 2 1 item) before after frame rfl
    covers_before executes_load rfl regular_frame (fun _ he => by cases he) satisfies_after⟩

end LoadCase

end Refuter
