import Refuter.Proofs.Path.FieldWrite
import Refuter.Proofs.Path.Operations
import Refuter.Proofs.Path.SkippedCall
import Mathlib.Data.List.Nodup
import Mathlib.Data.List.Perm.Subperm

/-!
# Element writes on a path store

An element is read under an index name, and a write to an array hits the read exactly if the name
stands for the written index. A visit splits the store on that question, once for every name that is
read through the array. `PathM.visit_arrayStore_partitions` says that the cases are exhaustive and,
unless the store is full, exclusive.
-/

namespace Refuter

open StoreM

/-! ## 1. Reading elements -/

/-- Elements are read as the only field of a local, a return slot or a static field. -/
def AccessPath.ReadsElementsWhole (v : AccessPath) : Prop :=
  ∀ f ∈ v.fields, f.isElement = true → v.isRooted = true ∧ v.fields = [f]

/-- The location behind the base of the path is one of its candidates. -/
def Naming.Picks (N : Naming) (v : AccessPath) : Prop :=
  v.base.pick N.location ∈ v.base.candidates

theorem Naming.picks_of_known {N : Naming} {x : Location} {fields : List Field} :
    N.Picks ⟨.known x, fields⟩ := SortedSet.mem_singleton.2 rfl

open Classical in
/-- Values of the paths whose base stands for a candidate. Other pointers stand for some object. -/
noncomputable def State.valuationWhere (σ : State) (N : Naming) : Valuation := fun v =>
  if N.Picks v then σ.valuationIn N v else some (.ref 0)

theorem State.valuationWhere_of_picks {σ : State} {N : Naming} {v : AccessPath} (h : N.Picks v) :
    σ.valuationWhere N v = σ.valuationIn N v := if_pos h

theorem State.sitesAreRefs_valuationWhere (σ : State) (N : Naming) :
    (σ.valuationWhere N).SitesAreRefs := by
  rintro ⟨base, fields⟩ hsite
  obtain ⟨hfields, hbase⟩ := Bool.and_eq_true_iff.1 hsite
  obtain rfl : fields = [] := List.isEmpty_iff.1 hfields
  unfold valuationWhere
  split
  · rename_i hpick
    -- a candidate of the base is a site, which stands for an object
    have hx : (base.pick N.location).isSite = true := Pointer.isSite_iff.1 hbase _ hpick
    unfold valuationIn
    dsimp only
    cases hl : base.pick N.location with
    | site s => exact ⟨N.object s, rfl⟩
    | slot | result | global | index =>
      rw [hl] at hx
      cases hx
  · exact ⟨0, rfl⟩

/-- The names under which elements are read through `array`, each once. -/
def PathStore.elementNames (s : PathStore) (array : Pointer) : List UInt64 :=
  ((s.paths.filter (·.base = array)).filterMap fun v => v.first?.bind Field.index?).eraseDups

theorem PathStore.mem_elementNames {s : PathStore} {array : Pointer} {n : UInt64} :
    n ∈ s.elementNames array ↔
      ∃ v ∈ s.paths, v.base = array ∧ v.first? = some (.element n) := by
  have hindex : ∀ f : Field, f.index? = some n ↔ f = .element n := fun f => by
    cases f <;> simp [Field.index?]
  simp only [elementNames, List.mem_eraseDups, List.mem_filterMap, List.mem_filter,
    decide_eq_true_eq, Option.bind_eq_some_iff, hindex, exists_eq_right, and_assoc]

/-- The names as a visit collects them. -/
theorem PathStore.mem_fieldsReadThrough {s : PathStore} {array : Pointer} {n : UInt64} :
    n ∈ (s.fieldsReadThrough array).toList.filterMap Field.index? ↔ n ∈ s.elementNames array := by
  have hindex : ∀ f : Field, f.index? = some n ↔ f = .element n := fun f => by
    cases f <;> simp [Field.index?]
  simp only [mem_elementNames, List.mem_filterMap, SortedSet.mem_toList, fieldsReadThrough,
    SortedSet.mem_ofList, List.mem_filter, decide_eq_true_eq, hindex, exists_eq_right, and_assoc]

theorem PathStore.nodup_fieldsReadThrough (s : PathStore) (array : Pointer) :
    ((s.fieldsReadThrough array).toList.filterMap Field.index?).Nodup := by
  refine List.Nodup.filterMap (fun f g n hf hg => ?_) (SortedSet.nodup_toList _)
  cases f <;> cases g <;> simp_all [Field.index?]

/-! ## 2. What an element write changes -/

section

variable {σ σ' : State} {N : Naming} {x : Location} {k : Int} {v : Value}

/-- Objects keep all but the written element. -/
theorem State.Updates.read_eq {r q : Ref} {b b' : Object} {f : Field}
    (hu : σ.Updates σ' x (State.setElement k v)) (hr : σ.root x = .ref r)
    (hb : σ.heap q = some b) (hb' : σ'.heap q = some b')
    (hf : q = r → ∀ n, f = .element n → N.index n ≠ k) : N.read b' f = N.read b f := by
  obtain ⟨p, c, hp, hc, -, hheap⟩ := hu
  rw [hr] at hp
  cases hp
  rw [hheap q] at hb'
  split at hb'
  · rename_i hq
    rw [hq, hc] at hb
    cases hb
    cases hb'
    cases f with
    | element n => exact if_neg (hf hq n rfl)
    | named | contents | length => rfl
  · rw [hb] at hb'
    cases hb'
    rfl

theorem State.Updates.heap_eq_none {q : Ref} {change : Object → Object}
    (hu : σ.Updates σ' x change) (hq : σ.heap q = none) : σ'.heap q = none := by
  obtain ⟨p, c, -, hc, -, hheap⟩ := hu
  rw [hheap q, if_neg ?_, hq]
  rintro rfl
  rw [hq] at hc
  cases hc

theorem State.Updates.exists_heap {q : Ref} {b : Object} {change : Object → Object}
    (hu : σ.Updates σ' x change) (hq : σ.heap q = some b) : ∃ b', σ'.heap q = some b' := by
  obtain ⟨p, c, -, -, -, hheap⟩ := hu
  rw [hheap q]
  split
  · exact ⟨_, rfl⟩
  · exact ⟨b, hq⟩

/-- A chain without elements reads the same before and after. -/
theorem State.Updates.chase_eq {fields : List Field}
    (hu : σ.Updates σ' x (State.setElement k v)) (hf : ∀ f ∈ fields, f.isElement = false)
    (y : Value) : σ'.chase N y fields = σ.chase N y fields := by
  induction fields generalizing y with
  | nil => cases y <;> rfl
  | cons f rest ih =>
    cases y with
    | int => rfl
    | ref q =>
      simp only [State.chase]
      cases hb : σ.heap q with
      | none => rw [hu.heap_eq_none hb]; rfl
      | some b =>
        obtain ⟨b', hb'⟩ := hu.exists_heap hb
        have hroot := hu
        obtain ⟨r, -, hr, -⟩ := hroot
        have hread : N.read b' f = N.read b f := by
          refine hu.read_eq hr hb hb' fun _ n hn => ?_
          have helement := hf f List.mem_cons_self
          rw [hn] at helement
          cases helement
        rw [hb', Option.bind_some, Option.bind_some, hread]
        exact ih (fun g hg => hf g (List.mem_cons_of_mem _ hg)) _

theorem State.Updates.start_eq {change : Object → Object} (hu : σ.Updates σ' x change)
    (y : Location) : σ'.start N y = σ.start N y := by
  cases y with
  | site | index => rfl
  | slot | result | global => exact congrFun hu.root_eq _

/-- Elements of other arrays and other elements of the array read the same before and after. -/
theorem State.Updates.valuationIn_eq {h : HeapGraph} {w : AccessPath}
    (hu : σ.Updates σ' x (State.setElement k v)) (hc : h.Covers σ) (hx : x.isRoot = true)
    (hwhole : w.ReadsElementsWhole)
    (hself : ∀ n, w.fields = [.element n] → w.base = .known x → N.index n ≠ k)
    (hother : ∀ n, w.fields = [.element n] → w.base ≠ .known x →
      h.mayAlias w.base (.known x) = false) :
    σ.valuationIn N w = σ'.valuationIn N w := by
  unfold State.valuationIn
  rw [hu.start_eq]
  by_cases helement : ∃ f ∈ w.fields, f.isElement = true
  · obtain ⟨f, hf, hf'⟩ := helement
    obtain ⟨hroot, hfields⟩ := hwhole f hf hf'
    obtain ⟨base, fields⟩ := w
    dsimp only at hfields hf hself hother ⊢
    subst hfields
    cases base with
    | choice => cases hroot
    | known y =>
      have hy : y.isRoot = true := hroot
      dsimp only [Pointer.pick]
      rw [State.start_of_isRoot hy]
      cases hq : σ.root y with
      | int => rfl
      | ref q =>
        obtain ⟨b, hb⟩ := Option.isSome_iff_exists.1 (σ.root_live y q hq)
        obtain ⟨b', hb'⟩ := hu.exists_heap hb
        have hroot := hu
        obtain ⟨r, -, hr, -⟩ := hroot
        have hread : N.read b' f = N.read b f := by
          refine hu.read_eq hr hb hb' ?_
          rintro rfl n rfl
          by_cases hyx : y = x
          · exact hself n rfl (congrArg _ hyx)
          · -- two roots with the same array may alias
            have halias := hc.mayAlias_of_root_eq hy hx hq hr
            rw [hother n rfl fun h => hyx (Pointer.known.inj h)] at halias
            cases halias
        simp only [State.chase, hb, hb', Option.bind_some, hread]
  · refine (hu.chase_eq (fun f hf => Bool.eq_false_iff.2 fun hf' => ?_) _).symm
    exact helement ⟨f, hf, hf'⟩

/-- The element under a name of the written index is the written value. -/
theorem State.Updates.valuationIn_self {n : UInt64} (hu : σ.Updates σ' x (State.setElement k v))
    (hx : x.isRoot = true) (hn : N.index n = k) :
    σ'.valuationIn N ⟨.known x, [.element n]⟩ = some v := by
  obtain ⟨r, b, hr, -, hroot, hheap⟩ := hu
  unfold State.valuationIn
  dsimp only [Pointer.pick]
  rw [State.start_of_isRoot hx, hroot, hr]
  simp only [State.chase, hheap r, if_pos, Option.bind_some]
  exact congrArg some (if_pos hn)

end

theorem Term.meaning_operand (σ : State) (N : Naming) (site : Site) (o : Operand) :
    (o.term site).meaning (σ.valuationWhere N) = some (σ.operand site.method o) := by
  cases o with
  | slot l => exact State.valuationWhere_of_picks Naming.picks_of_known
  | const | null => rfl

theorem Term.meaning_index (σ : State) (N : Naming) (n : UInt64) :
    (Term.bare (.known (.index n))).meaning (σ.valuationWhere N) = some (.int (N.index n)) :=
  State.valuationWhere_of_picks Naming.picks_of_known

/-! ## 3. The cases are exhaustive -/

/-- The path may be read while the elements of `array` under the names `rest` are still to be
decided: under any other name it is not the written one, at the index `k`. -/
structure AccessPath.Awaits (h : HeapGraph) (N : Naming) (array : Pointer) (k : Int)
    (rest : List UInt64) (v : AccessPath) : Prop where
  picks : N.Picks v
  whole : v.ReadsElementsWhole
  other : ∀ n, v.fields = [.element n] → v.base ≠ array → h.mayAlias v.base array = false
  self : ∀ n, v.fields = [.element n] → v.base = array → n ∈ rest ∨ N.index n ≠ k

theorem AccessPath.awaits_bare {h : HeapGraph} {N : Naming} {array : Pointer} {k : Int}
    {rest : List UInt64} {x : Location} :
    (AccessPath.mk (.known x) []).Awaits h N array k rest where
  picks := Naming.picks_of_known
  whole f hf := by cases hf
  other n hn := by cases hn
  self n hn := by cases hn

theorem AccessPath.Awaits.of_decided {h : HeapGraph} {N : Naming} {array : Pointer} {k : Int}
    {n : UInt64} {rest : List UInt64} {v : AccessPath} (hv : v.Awaits h N array k (n :: rest))
    (hn : v.fields = [.element n] → v.base = array → N.index n ≠ k) :
    v.Awaits h N array k rest where
  picks := hv.picks
  whole := hv.whole
  other := hv.other
  self m hm hbase := by
    obtain hmem | hne := hv.self m hm hbase
    · obtain rfl | hmem := List.mem_cons.1 hmem
      · exact .inr (hn hm hbase)
      · exact .inl hmem
    · exact .inr hne

/-- All paths of the constraint may be read, and it holds after the write. -/
def Constraint.Awaits (h : HeapGraph) (N : Naming) (σ' : State) (array : Pointer) (k : Int)
    (rest : List UInt64) (c : Constraint) : Prop :=
  c.Holds (σ'.valuationWhere N) ∧ ∀ v ∈ c.paths, v.Awaits h N array k rest

namespace PathM

section

variable {h : HeapGraph} {N : Naming} {σ σ' : State} {site : Site} {array : Local}
  {index value : Operand} {k : Int} {n : UInt64} {names rest : List UInt64}
  {f : Frame PathStore}

/-- The operands are read by bare paths. -/
theorem awaits_of_mem_operand {p : Pointer} {o : Operand} {v : AccessPath}
    (hv : v ∈ (o.term site).paths) : v.Awaits h N p k rest := by
  cases o with
  | slot l =>
    rw [List.mem_singleton.1 hv]
    exact AccessPath.awaits_bare
  | const | null => cases hv

section

variable
  (hu : σ.Updates σ' (.slot site.method array) (State.setElement k (σ.operand site.method value)))
include hu

/-- After the write the operands have the values they had before. -/
theorem meaning_operand_after (o : Operand) :
    (o.term site).meaning (σ'.valuationWhere N) = some (σ.operand site.method o) := by
  rw [Term.meaning_operand]
  cases o with
  | slot l => exact congrArg some (congrFun hu.root_eq _)
  | const | null => rfl

/-- After the write the element under a name of the written index has the written value. -/
theorem carries_written_element (hn : N.index n = k) {v : AccessPath}
    (hwhole : v.ReadsElementsWhole) :
    (Term.var v).Carries (σ'.valuationWhere N) (σ'.valuationWhere N)
      (v.written (value.term site) (.slot site.method array) (.element n)) := by
  intro _ x hx
  obtain ⟨base, fields⟩ := v
  unfold AccessPath.written
  cases fields with
  | nil => exact hx
  | cons f rest =>
    dsimp only
    split
    · rename_i hread
      simp only [Bool.and_eq_true, decide_eq_true_eq] at hread
      obtain ⟨rfl, rfl⟩ := hread
      have hfields : Field.element n :: rest = [.element n] :=
        (hwhole _ List.mem_cons_self rfl).2
      cases hfields
      have hafter : σ'.valuationWhere N ⟨.slot site.method array, [.element n]⟩ =
          some (σ.operand site.method value) :=
        (State.valuationWhere_of_picks Naming.picks_of_known).trans (hu.valuationIn_self rfl hn)
      show (value.term site).meaning _ = some x
      rw [meaning_operand_after hu, ← hafter]
      exact hx
    · exact hx

end

/-- Once the written value is put in, the name of the element is decided. -/
theorem awaits_of_mem_written_element {v w : AccessPath}
    (hv : v.Awaits h N (.slot site.method array) k (n :: rest))
    (hw : w ∈ ((v.written (value.term site) (.slot site.method array) (.element n)).getD
      (.var v)).paths) :
    w.Awaits h N (.slot site.method array) k rest := by
  obtain ⟨base, fields⟩ := v
  unfold AccessPath.written at hw
  cases fields with
  | nil =>
    rw [List.mem_singleton.1 hw]
    exact hv.of_decided fun hn => by cases hn
  | cons f more =>
    dsimp only at hw
    split at hw
    · rename_i hread
      simp only [Bool.and_eq_true, decide_eq_true_eq] at hread
      obtain ⟨rfl, rfl⟩ := hread
      have hfields : Field.element n :: more = [.element n] :=
        (hv.whole _ List.mem_cons_self rfl).2
      cases hfields
      exact awaits_of_mem_operand hw
    · rename_i hread
      rw [List.mem_singleton.1 hw]
      refine hv.of_decided fun hn hbase => absurd ?_ hread
      cases hn
      simpa using hbase

section

variable (hu : σ.Updates σ' (.slot site.method array)
    (State.setElement k (σ.operand site.method value)))
  (hindex : σ.operand site.method index = .int k)
include hu hindex

/-- The index can be compared with a name as their values compare. -/
theorem ends_require_name {op : CmpOp} (hop : op.truth (.int (N.index n)) (.int k) = some true)
    (hs : f.store.Admits (Constraint.Awaits h N σ' (.slot site.method array) k rest)) :
    Ends (require (.bare (.known (.index n))) op (index.term site)) f fun _ g =>
      g.store.Admits (Constraint.Awaits h N σ' (.slot site.method array) k rest) := by
  have hholds : ∀ id, Constraint.Holds (σ'.valuationWhere N)
      ⟨.bare (.known (.index n)), op, index.term site, id⟩ := fun id =>
    ⟨_, _, Term.meaning_index σ' N n, (meaning_operand_after hu index).trans (congrArg some hindex),
      hop⟩
  refine ends_require_of_holds (σ'.sitesAreRefs_valuationWhere N) hs hholds fun id =>
    ⟨hholds id, fun v hv => ?_⟩
  obtain hv | hv := List.mem_append.1 hv
  · rw [List.mem_singleton.1 hv]
    exact AccessPath.awaits_bare
  · exact awaits_of_mem_operand hv

/-- The case that the element is the written one, if the name stands for the written index. -/
theorem ends_same (hn : N.index n = k)
    (hs : f.store.Admits (Constraint.Awaits h N σ' (.slot site.method array) k (n :: rest))) :
    Ends (do
      let _ ← spliceRead (value.term site) (.slot site.method array) (.element n)
      require (.bare (.known (.index n))) .eq (index.term site)) f fun _ g =>
      g.store.Admits (Constraint.Awaits h N σ' (.slot site.method array) k rest) := by
  unfold spliceRead
  rw [ends_bind, Term.spliceRead_eq]
  refine (ends_changeAll hs.feasible fun c hc => ?_).mono fun _ g hg =>
    ends_require_name hu hindex (by rw [hn]; exact congrArg some (decide_eq_true rfl)) hg
  obtain ⟨hholds, hpaths⟩ := hs.all c hc
  refine Constraint.keeps_replace (σ'.sitesAreRefs_valuationWhere N)
    (fun v hv => carries_written_element hu hn (hpaths v hv).whole) hholds fun d hd hpd =>
    ⟨hd, fun w hw => ?_⟩
  obtain ⟨v, hv, -, hwv⟩ := hpd w hw
  exact awaits_of_mem_written_element (hpaths v hv) hwv

/-- The case that it is another one, if the name stands for another index. -/
theorem ends_other (hn : N.index n ≠ k)
    (hs : f.store.Admits (Constraint.Awaits h N σ' (.slot site.method array) k (n :: rest))) :
    Ends (require (.bare (.known (.index n))) .ne (index.term site)) f fun _ g =>
      g.store.Admits (Constraint.Awaits h N σ' (.slot site.method array) k rest) := by
  have hne : Value.int (N.index n) ≠ .int k := fun heq => hn (Value.int.inj heq)
  refine ends_require_name hu hindex (congrArg some (decide_eq_true hne)) ⟨hs.feasible, ?_⟩
  intro c hc
  obtain ⟨hholds, hpaths⟩ := hs.all c hc
  exact ⟨hholds, fun v hv => (hpaths v hv).of_decided fun _ _ => hn⟩

/-- Whatever the names stand for, one case decides all of them as they are. -/
theorem ends_splitElements {cases : Survivors PathStore}
    (hcases : ∃ s ∈ cases.live,
      s.Admits (Constraint.Awaits h N σ' (.slot site.method array) k names)) :
    Ends (splitElements (.slot site.method array) (index.term site) (value.term site) names cases) f
      fun cases _ => ∃ s ∈ cases.live,
        s.Admits (Constraint.Awaits h N σ' (.slot site.method array) k []) := by
  -- one name after the other: a case that awaits `n :: rest` has a branch that awaits `rest`
  induction names generalizing cases f with
  | nil => exact ends_pure.2 hcases
  | cons n rest ih =>
    obtain ⟨s, hs, hawaits⟩ := hcases
    unfold splitElements
    rw [ends_bind]
    refine (ends_attemptAll ?_ (.inr ?_)).mono fun cases g hg => ih hg
    · intro b hb
      obtain ⟨t, -, hb⟩ := List.mem_flatMap.1 hb
      obtain rfl | hb := List.mem_cons.1 hb
      · exact (edits_changeAll _).safe.bind fun _ => safe_require _ _ _
      · rw [List.mem_singleton.1 hb]
        exact safe_require _ _ _
    · -- the branch of `s` that agrees with what `n` stands for
      by_cases hn : N.index n = k
      · exact ⟨_, List.mem_flatMap.2 ⟨s, hs, List.mem_cons_self⟩, fun session =>
          ends_same hu hindex hn hawaits⟩
      · exact ⟨_, List.mem_flatMap.2 ⟨s, hs, List.mem_cons_of_mem _ List.mem_cons_self⟩,
          fun session => ends_other hu hindex hn hawaits⟩

end

/-- Once no name is left, all paths read the same before and after the write. -/
theorem satisfies_of_awaits {s : PathStore} (hc : h.Covers σ)
    (hu : σ.Updates σ' (.slot site.method array)
      (State.setElement k (σ.operand site.method value)))
    (hs : s.Admits (Constraint.Awaits h N σ' (.slot site.method array) k [])) :
    (σ.valuationIn N).Satisfies s := by
  intro c hcm
  obtain ⟨hholds, hpaths⟩ := hs.all c hcm
  refine (Constraint.holds_congr fun v hv => ?_).1 hholds
  obtain ⟨hpick, hwhole, hother, hself⟩ := hpaths v hv
  rw [State.valuationWhere_of_picks hpick]
  refine (hu.valuationIn_eq hc rfl hwhole (fun n hn hbase => ?_) hother).symm
  exact (hself n hn hbase).resolve_left (List.not_mem_nil)

/-- Before any name is decided: the reads that are left are through the array itself or through
pointers apart from it. -/
theorem admits_of_satisfies {s t : PathStore} {test : Constraint → Bool}
    (htest : ∀ c, test c = c.paths.any fun v =>
      (v.base ≠ .slot site.method array) && readsElement v &&
        h.mayAlias v.base (.slot site.method array))
    (hfeasible : t.feasible = true) (ht : t.constraints = s.constraints.filter (!test ·))
    (hwhole : ∀ v ∈ s.paths, v.ReadsElementsWhole) (hpicks : ∀ v ∈ s.paths, N.Picks v)
    (hs : (σ'.valuationIn N).Satisfies s) :
    t.Admits (Constraint.Awaits h N σ' (.slot site.method array) k
      ((t.fieldsReadThrough (.slot site.method array)).toList.filterMap Field.index?)) := by
  refine ⟨hfeasible, fun c hc => ?_⟩
  have hmem := hc
  rw [ht, List.mem_filter, Bool.not_eq_true', htest, List.any_eq_false] at hmem
  obtain ⟨hcs, hkept⟩ := hmem
  have hpaths : ∀ v ∈ c.paths, v ∈ s.paths := fun v hv => PathStore.mem_paths hcs hv
  constructor
  · refine (Constraint.holds_congr fun v hv => ?_).2 (hs c hcs)
    exact State.valuationWhere_of_picks (hpicks v (hpaths v hv))
  · intro v hv
    refine ⟨hpicks v (hpaths v hv), hwhole v (hpaths v hv), fun n hn hbase => ?_,
      fun n hn hbase => .inl ?_⟩
    · have hreads : readsElement v = true := by
        unfold readsElement AccessPath.first?
        rw [hn]
        rfl
      have hno := hkept v hv
      rw [hreads, decide_eq_true hbase, Bool.true_and, Bool.true_and] at hno
      exact Bool.eq_false_iff.2 hno
    · refine PathStore.mem_fieldsReadThrough.2 (PathStore.mem_elementNames.2 ⟨v, ?_, hbase, ?_⟩)
      · exact PathStore.mem_paths hc hv
      · unfold AccessPath.first?
        rw [hn]
        rfl

theorem visit_arrayStore (hf : f.store.feasible = true) :
    visit h site (.arrayStore array index value) f =
      storeElement h (.slot site.method array) (index.term site) (value.term site) f := by
  have hrequire : requireFeasible f = .ok () f := by
    show (if !f.store.feasible then halt .alreadyRefuted else pure () : PathM Unit) f = _
    rw [hf]
    rfl
  unfold visit
  rw [bind_of_ok hrequire]

/-- A visit of an element write keeps a case for every state before the write. -/
theorem ends_visit_arrayStore (hc : h.Covers σ)
    (hexec : σ.Executes site (.arrayStore array index value) σ')
    (hsensitive : f.session.options.indexSensitivity = true) (hf : f.store.feasible = true)
    (hwhole : ∀ v ∈ f.store.paths, v.ReadsElementsWhole) (hpicks : ∀ v ∈ f.store.paths, N.Picks v)
    (hs : (σ'.valuationIn N).Satisfies f.store) :
    Ends (visit h site (.arrayStore array index value)) f fun rest g =>
      ∃ s ∈ g.store :: rest, s.feasible = true ∧ (σ.valuationIn N).Satisfies s := by
  obtain ⟨k, hindex, hu⟩ := hexec
  have hcase : ∀ s : PathStore,
      s.Admits (Constraint.Awaits h N σ' (.slot site.method array) k []) →
      s.feasible = true ∧ (σ.valuationIn N).Satisfies s := fun s hs =>
    ⟨hs.feasible, satisfies_of_awaits hc hu hs⟩
  unfold Ends
  rw [visit_arrayStore hf]
  show Ends (storeElement _ _ _ _) f _
  unfold storeElement
  rw [ends_bind, ends_options, hsensitive, ends_bind]
  refine (ends_dropWhere_filter _).mono fun _ g hg => ?_
  have hawaits := admits_of_satisfies (k := k) (fun _ => rfl) (hg.1.trans hf) hg.2 hwhole hpicks hs
  simp only [Bool.not_true, Bool.false_eq_true, if_false, ends_bind, ends_store]
  split
  · -- no element of the array is read, so there is nothing to decide
    rename_i hempty
    rw [List.isEmpty_iff.1 hempty] at hawaits
    exact ends_pure.2 ⟨_, List.mem_cons_self, hcase _ hawaits⟩
  · simp only [ends_bind, ends_store]
    refine (ends_splitElements hu hindex ⟨_, List.mem_singleton.2 rfl, hawaits⟩).mono
      fun cases g' hcases => ?_
    obtain ⟨s, hs, hdecided⟩ := hcases
    exact ends_commit ⟨s, hs, hcase s hdecided⟩

end

end PathM

/-! ## 4. The cases are exclusive -/

/-- The comparison that decides the name `n`. -/
def Constraint.decision (index : Term) (n : UInt64) (op : CmpOp) : Constraint :=
  ⟨.bare (.known (.index n)), op, index, ⟨0⟩⟩

/-- The two stores decide some name in opposite ways. -/
def PathStore.Opposes (index : Term) (s t : PathStore) : Prop :=
  ∃ n, s.Has (.decision index n .eq) ∧ t.Has (.decision index n .ne)

theorem PathStore.Opposes.not_satisfies {index : Term} {s t : PathStore} (h : s.Opposes index t)
    (V : Valuation) : ¬ (V.Satisfies s ∧ V.Satisfies t) := by
  rintro ⟨hs, ht⟩
  obtain ⟨n, ⟨c, hc, hsame⟩, d, hd, hother⟩ := h
  obtain ⟨hop, hl, hr⟩ := Constraint.sameAs_iff.1 hsame
  obtain ⟨hop', hl', hr'⟩ := Constraint.sameAs_iff.1 hother
  obtain ⟨a, b, ha, hb, heq⟩ := hs c hc
  obtain ⟨a', b', ha', hb', hne⟩ := ht d hd
  rw [hl] at ha
  rw [hr] at hb
  rw [hl'] at ha'
  rw [hr'] at hb'
  -- both decisions compare the same two terms
  cases Option.some.inj (ha.symm.trans ha')
  cases Option.some.inj (hb.symm.trans hb')
  rw [hop] at heq
  rw [hop'] at hne
  exact absurd (of_decide_eq_true (Option.some.inj heq)) (of_decide_eq_true (Option.some.inj hne))

namespace StoreM

variable {σ τ α : Type} {J : Session → Prop} {f : Frame σ}

/-- A branch can end in the store `t`, in some session with `J`. -/
def Outcome (J : Session → Prop) (b : StoreM τ α × τ) (t : τ) : Prop :=
  ∃ session a g, J session ∧ b.1 ⟨b.2, session⟩ = .ok a g ∧ g.store = t

/-- What survives was there before or is an outcome of a branch. If the outcomes of different
branches are related, so are the survivors. -/
theorem results_attemptAll {R : τ → τ → Prop} {branches : List (StoreM τ α × τ)}
    {cases : Survivors τ}
    (hsession : ∀ b ∈ branches, ∀ session, J session →
      Results b.1 ⟨b.2, session⟩ (fun _ g => J g.session) fun _ g => J g.session)
    (hJ : J f.session) (hlive : cases.live.Pairwise R)
    (hnew : ∀ s ∈ cases.live, ∀ b ∈ branches, ∀ t, Outcome J b t → R s t)
    (hbranches : branches.Pairwise fun b b' => ∀ t u, Outcome J b t → Outcome J b' u → R t u) :
    Results (attemptAll branches cases) f
      (fun out g => J g.session ∧ out.live.Pairwise R ∧
        ∀ t ∈ out.live, t ∈ cases.live ∨ ∃ b ∈ branches, Outcome J b t)
      fun _ _ => True := by
  induction branches generalizing f cases with
  | nil => exact results_pure.2 ⟨hJ, hlive, fun t ht => .inl ht⟩
  | cons b rest ih =>
    obtain ⟨hfirst, hrest⟩ := List.pairwise_cons.1 hbranches
    have hb := hsession b List.mem_cons_self f.session hJ
    have hmem : ∀ {b'}, b' ∈ rest → b' ∈ b :: rest := List.mem_cons_of_mem b
    unfold attemptAll
    rw [results_bind]
    refine results_attempt (fun a g hrun => ?_) (fun r g hrun => ?_) fun _ _ _ => trivial
    · -- the new survivor is related to the earlier ones and to what later branches leave
      have hout : Outcome J b g.store := ⟨f.session, a, g, hJ, hrun, rfl⟩
      refine (ih (fun b' hb' => hsession b' (hmem hb')) (hb.of_ok hrun) ?_ ?_ hrest).mono
        (fun out g' hg => ?_) fun _ _ h => h
      · refine List.pairwise_append.2 ⟨hlive, List.pairwise_singleton _ _, fun s hs t ht => ?_⟩
        rw [List.mem_singleton.1 ht]
        exact hnew s hs b List.mem_cons_self _ hout
      · intro s hs b' hb' t ht
        obtain hs | hs := List.mem_append.1 hs
        · exact hnew s hs b' (hmem hb') t ht
        · rw [List.mem_singleton.1 hs]
          exact hfirst b' hb' _ t hout ht
      · obtain ⟨hJ', hpairwise, horigin⟩ := hg
        refine ⟨hJ', hpairwise, fun t ht => ?_⟩
        obtain ht | ⟨b', hb', ht⟩ := horigin t ht
        · obtain ht | ht := List.mem_append.1 ht
          · exact .inl ht
          · rw [List.mem_singleton.1 ht]
            exact .inr ⟨b, List.mem_cons_self, hout⟩
        · exact .inr ⟨b', hmem hb', ht⟩
    · -- the survivors are those of the other branches
      refine Results.mono (ih (fun b' hb' => hsession b' (hmem hb')) (hb.of_error hrun) hlive
        (fun s hs b' hb' => hnew s hs b' (hmem hb')) hrest) (fun out g' hg => ?_) fun _ _ h => h
      obtain ⟨hJ', hpairwise, horigin⟩ := hg
      refine ⟨hJ', hpairwise, fun t ht => (horigin t ht).imp_right ?_⟩
      rintro ⟨b', hb', ht⟩
      exact ⟨b', hmem hb', ht⟩

end StoreM

/-- The settings allow `limit` constraints. -/
def Session.Limits (limit : Nat) (s : Session) : Prop :=
  s.options.maxPathConstraints.toNat = limit

theorem Session.Limits.of_notes {limit : Nat} {s s' : Session} (h : s.Limits limit)
    (hnotes : s.Notes s') : s'.Limits limit := by
  obtain ⟨journal, rfl⟩ := hnotes
  exact h

/-- `t` has the decisions of `s` and that of `n`, and at most one constraint more. -/
structure PathStore.Decides (index : Term) (n : UInt64) (op : CmpOp) (s t : PathStore) : Prop where
  has : ∀ m op', s.Has (.decision index m op') → t.Has (.decision index m op')
  new : t.Has (.decision index n op)
  length : t.constraints.length ≤ s.constraints.length + 1

theorem Constraint.isConstant_decision (site : Site) (index : Operand) (n : UInt64) {op : CmpOp}
    {id : ConstraintId} :
    (Constraint.mk (.bare (.known (.index n))) op (index.term site) id).isConstant = false := by
  cases index <;> simp [isConstant, isLiteralTest, Term.isConstant, Term.bare, Term.isSite,
    Operand.term, AccessPath.isSite, Pointer.isSite, Pointer.slot, Pointer.candidates,
    SortedSet.singleton, Location.isSite]

/-- A decision reads no field. -/
theorem Constraint.fields_of_mem_decision {site : Site} {index : Operand} {n : UInt64} {op : CmpOp}
    {v : AccessPath} (hv : v ∈ (decision (index.term site) n op).paths) : v.fields = [] := by
  obtain hv | hv := List.mem_append.1 hv
  · rw [List.mem_singleton.1 hv]
  · cases index with
    | slot =>
      rw [List.mem_singleton.1 hv]
    | const | null => cases hv

namespace PathM

section

variable {h : HeapGraph} {site : Site} {array : Pointer} {index : Operand} {value : Term}
  {limit : Nat} {n : UInt64} {f : Frame PathStore}

/-- A store with room takes the decision. -/
theorem results_require_decision {op : CmpOp} (hlimit : f.session.Limits limit)
    (hroom : f.store.constraints.length < limit) :
    Results (require (.bare (.known (.index n))) op (index.term site)) f
      (fun _ g => g.session.Limits limit ∧ f.store.Decides (index.term site) n op g.store)
      fun _ g => g.session.Limits limit := by
  let c : Constraint :=
    ⟨.bare (.known (.index n)), op, index.term site, ⟨f.session.nextConstraint⟩⟩
  let f' : Frame PathStore :=
    { f with session := { f.session with nextConstraint := f.session.nextConstraint + 1 } }
  have hlimit' : f'.session.Limits limit := hlimit
  have hedits := edits_add c f'
  show Results (add c) f' _ _
  unfold Results
  cases hrun : add c f' with
  | error e g => exact hlimit'.of_notes (hedits.of_error hrun).1
  | ok _ g =>
    obtain ⟨hnotes, hstore⟩ := hedits.of_ok hrun
    refine ⟨hlimit'.of_notes hnotes, fun m op' hhas => has_add (f := f') hhas hrun, ?_, ?_⟩
    · have hroom' : f'.store.constraints.length < f'.session.options.maxPathConstraints.toNat :=
        Nat.lt_of_lt_of_eq hroom hlimit'.symm
      have hhas : g.store.Has c :=
        has_of_add (Constraint.isConstant_decision site index n) hroom' hrun
      exact hhas
    · obtain hstore | ⟨-, hstore⟩ := hstore
      · rw [hstore]
        exact Nat.le_succ _
      · rw [hstore]
        exact Nat.le_of_eq List.length_append

/-- Putting in the written value leaves all decisions. -/
theorem results_spliceRead_decision (site : Site) (index : Operand)
    (hlimit : f.session.Limits limit) :
    Results (spliceRead value array (.element n)) f
      (fun _ g => g.session.Limits limit ∧
        (∀ m op, f.store.Has (.decision (index.term site) m op) →
          g.store.Has (.decision (index.term site) m op)) ∧
        g.store.constraints.length ≤ f.store.constraints.length)
      fun _ g => g.session.Limits limit := by
  have hedits := edits_changeAll (Constraint.replace (Term.spliceRead value array (.element n))) f
  unfold Results
  cases hrun : spliceRead value array (.element n) f with
  | error e g => exact hlimit.of_notes (hedits.of_error hrun).1
  | ok b g =>
    obtain ⟨hnotes, hstore⟩ := hedits.of_ok hrun
    refine ⟨hlimit.of_notes hnotes, fun m op hhas => ?_, ?_⟩
    · refine has_replacePaths hhas (fun v hv => ?_) hrun
      exact AccessPath.written_of_bare (Constraint.fields_of_mem_decision hv)
    · obtain hstore | ⟨-, hstore⟩ := hstore
      · exact Nat.le_of_eq (by rw [hstore])
      · rw [hstore]
        exact Nat.le_trans (eraseDupsBy_sublist _).length_le (List.length_filterMap_le _ _)

theorem results_same_decision (hlimit : f.session.Limits limit)
    (hroom : f.store.constraints.length < limit) :
    Results (do
        let _ ← spliceRead value array (.element n)
        require (.bare (.known (.index n))) .eq (index.term site)) f
      (fun _ g => g.session.Limits limit ∧ f.store.Decides (index.term site) n .eq g.store)
      fun _ g => g.session.Limits limit := by
  rw [results_bind]
  refine (results_spliceRead_decision site index hlimit).mono (fun _ g hg => ?_) fun _ _ h => h
  obtain ⟨hlimit', hhas, hlength⟩ := hg
  refine (results_require_decision hlimit' (Nat.lt_of_le_of_lt hlength hroom)).mono
    (fun _ g' hg' => ?_) fun _ _ h => h
  obtain ⟨hlimit'', hdecides⟩ := hg'
  exact ⟨hlimit'', fun m op h => hdecides.has m op (hhas m op h), hdecides.new,
    Nat.le_trans hdecides.length (Nat.succ_le_succ hlength)⟩

/-- Cases that oppose each other stay so, and those of one store oppose each other in the name that
is decided. -/
theorem results_splitElements {names : List UInt64} {cases : Survivors PathStore}
    (hlimit : f.session.Limits limit)
    (hlive : cases.live.Pairwise (PathStore.Opposes (index.term site)))
    (hroom : ∀ s ∈ cases.live, s.constraints.length + names.length ≤ limit) :
    Results (splitElements array (index.term site) value names cases) f
      (fun cases _ => cases.live.Pairwise (PathStore.Opposes (index.term site)))
      fun _ _ => True := by
  -- the invariant counts the room that the names still to be decided need
  induction names generalizing cases f with
  | nil => exact hlive
  | cons n rest ih =>
    let same : PathM Unit := do
      let _ ← spliceRead value array (.element n)
      require (.bare (.known (.index n))) .eq (index.term site)
    let other : PathM Unit := require (.bare (.known (.index n))) .ne (index.term site)
    have hlt : ∀ s ∈ cases.live, s.constraints.length < limit := by
      intro s hs
      have hle := hroom s hs
      rw [List.length_cons] at hle
      omega
    have hsame : ∀ s ∈ cases.live, ∀ t, Outcome (Session.Limits limit) (same, s) t →
        s.Decides (index.term site) n .eq t := by
      rintro s hs t ⟨session, a, g, hJ, hrun, rfl⟩
      exact ((results_same_decision (f := ⟨s, session⟩) hJ (hlt s hs)).of_ok hrun).2
    have hother : ∀ s ∈ cases.live, ∀ t, Outcome (Session.Limits limit) (other, s) t →
        s.Decides (index.term site) n .ne t := by
      rintro s hs t ⟨session, a, g, hJ, hrun, rfl⟩
      exact ((results_require_decision (f := ⟨s, session⟩) hJ (hlt s hs)).of_ok hrun).2
    have hdecides : ∀ s ∈ cases.live, ∀ b ∈ [(same, s), (other, s)], ∀ t,
        Outcome (Session.Limits limit) b t → ∃ op, s.Decides (index.term site) n op t := by
      intro s hs b hb t ht
      obtain rfl | hb := List.mem_cons.1 hb
      · exact ⟨_, hsame s hs t ht⟩
      · rw [List.mem_singleton.1 hb] at ht
        exact ⟨_, hother s hs t ht⟩
    have hbranches : (cases.live.flatMap fun s => [(same, s), (other, s)]).Pairwise
        fun b b' => ∀ t u, Outcome (Session.Limits limit) b t →
          Outcome (Session.Limits limit) b' u → t.Opposes (index.term site) u := by
      refine List.pairwise_flatMap.2 ⟨fun s hs => ?_, ?_⟩
      · refine List.pairwise_pair.2 fun t u ht hu => ?_
        exact ⟨n, (hsame s hs t ht).new, (hother s hs u hu).new⟩
      · -- branches of two cases keep the decisions in which the cases differ
        refine hlive.imp_of_mem fun {s s'} hs hs' hopposes b hb b' hb' t u ht hu => ?_
        obtain ⟨m, heq, hne⟩ := hopposes
        obtain ⟨_, hst⟩ := hdecides s hs b hb t ht
        obtain ⟨_, hsu⟩ := hdecides s' hs' b' hb' u hu
        exact ⟨m, hst.has m .eq heq, hsu.has m .ne hne⟩
    unfold splitElements
    rw [results_bind]
    refine (results_attemptAll ?_ hlimit .nil ?_ hbranches).mono (fun next g hg => ?_)
      fun _ _ h => h
    · intro b hb session hJ
      obtain ⟨s, hs, hb⟩ := List.mem_flatMap.1 hb
      obtain rfl | hb := List.mem_cons.1 hb
      · exact (results_same_decision (f := ⟨s, session⟩) hJ (hlt s hs)).mono (fun _ _ h => h.1)
          fun _ _ h => h
      · rw [List.mem_singleton.1 hb]
        exact (results_require_decision (f := ⟨s, session⟩) hJ (hlt s hs)).mono (fun _ _ h => h.1)
          fun _ _ h => h
    · intro s hs
      cases hs
    · obtain ⟨hlimit', hlive', horigin⟩ := hg
      refine ih hlimit' hlive' fun t ht => ?_
      -- each survivor has at most one constraint more than the case it comes from
      obtain ht | ⟨b, hb, ht⟩ := horigin t ht
      · cases ht
      · obtain ⟨s, hs, hb⟩ := List.mem_flatMap.1 hb
        obtain ⟨_, hst⟩ := hdecides s hs b hb t ht
        have hle := hroom s hs
        have hlength := hst.length
        rw [List.length_cons] at hle
        omega

end

/-- The names that a visit splits on are among those that were read before. -/
theorem length_names_le {s t : PathStore} (array : Pointer)
    (h : ∀ c ∈ t.constraints, c ∈ s.constraints) :
    ((t.fieldsReadThrough array).toList.filterMap Field.index?).length ≤
      (s.elementNames array).length := by
  refine ((t.nodup_fieldsReadThrough array).subperm fun n hn => ?_).length_le
  obtain ⟨v, hv, hread⟩ := PathStore.mem_elementNames.1 (PathStore.mem_fieldsReadThrough.1 hn)
  obtain ⟨c, hc, hv⟩ := List.mem_flatMap.1 hv
  exact PathStore.mem_elementNames.2 ⟨v, PathStore.mem_paths (h c hc) hv, hread⟩

/-- Where there is room for all decisions, the cases of an element write oppose each other. -/
theorem results_visit_arrayStore {h : HeapGraph} {site : Site} {array : Local}
    {index value : Operand} {f : Frame PathStore} (hf : f.store.feasible = true)
    (hroom : f.store.constraints.length +
      (f.store.elementNames (.slot site.method array)).length ≤
        f.session.options.maxPathConstraints.toNat) :
    Results (visit h site (.arrayStore array index value)) f
      (fun rest g => (g.store :: rest).Pairwise (PathStore.Opposes (index.term site)))
      fun _ _ => True := by
  unfold Results
  rw [visit_arrayStore hf]
  show Results (storeElement _ _ _ _) f _ _
  unfold storeElement
  rw [results_bind, results_options, results_bind]
  refine (edits_dropWhere _ f).mono (fun _ g hg => ?_) fun _ _ _ => trivial
  obtain ⟨hnotes, hstore⟩ := hg
  have hsublist : g.store.constraints.Sublist f.store.constraints := by
    obtain hstore | ⟨-, hstore⟩ := hstore
    · rw [hstore]
    · rw [hstore]
      exact List.filter_sublist
  have hnames := length_names_le (.slot site.method array) fun c hc => hsublist.subset hc
  have hlength := hsublist.length_le
  split
  · exact List.pairwise_singleton _ _
  · simp only [results_bind, results_store]
    split
    · exact List.pairwise_singleton _ _
    · simp only [results_bind, results_store]
      have hlimit : g.session.Limits f.session.options.maxPathConstraints.toNat :=
        Session.Limits.of_notes rfl hnotes
      refine (results_splitElements hlimit (List.pairwise_singleton _ _) fun s hs => ?_).mono
        (fun cases g' hcases => ?_) fun _ _ h => h
      · rw [List.mem_singleton.1 hs]
        omega
      · refine results_commit (R := List.Pairwise (PathStore.Opposes (index.term site)))
          (fun _ => ?_) hcases
        exact results_refute.2 trivial

end PathM

/-! ## 5. The cases of an element write -/

/-- If elements are only read as a whole chain from a root, the cases that a visit of an element
write returns cover every state before the write that leads to one with all constraints, and no
valuation satisfies two of them as long as every name can be decided. -/
theorem PathM.visit_arrayStore_partitions (h : HeapGraph) (site : Site) (array : Local)
    (index value : Operand) (f : Frame PathStore)
    (hsensitive : f.session.options.indexSensitivity = true) (hf : f.store.feasible = true)
    (hwhole : ∀ v ∈ f.store.paths, v.ReadsElementsWhole) :
    (∀ (N : Naming) (σ σ' : State), h.Covers σ →
      σ.Executes site (.arrayStore array index value) σ' → (∀ v ∈ f.store.paths, N.Picks v) →
      (σ'.valuationIn N).Satisfies f.store →
      ∃ rest g, PathM.visit h site (.arrayStore array index value) f = .ok rest g ∧
        ∃ s ∈ g.store :: rest, s.feasible = true ∧ (σ.valuationIn N).Satisfies s) ∧
    (f.store.constraints.length + (f.store.elementNames (.slot site.method array)).length ≤
        f.session.options.maxPathConstraints.toNat →
      ∀ rest g, PathM.visit h site (.arrayStore array index value) f = .ok rest g →
        (g.store :: rest).Pairwise fun s t =>
          ∀ V : Valuation, ¬ (V.Satisfies s ∧ V.Satisfies t)) := by
  constructor
  · intro N σ σ' hc hexec hpicks hs
    exact PathM.ends_visit_arrayStore hc hexec hsensitive hf hwhole hpicks hs
  · intro hroom rest g hrun
    exact ((PathM.results_visit_arrayStore hf hroom).of_ok hrun).imp fun hopposes V =>
      hopposes.not_satisfies V

namespace TwoNames

def site : Site := ⟨⟨1⟩, false⟩

def alloc : AllocSite := ⟨1, "A", ⟨1⟩⟩

/-- Local 1 is an array, which holds `n` at the index 0 and zero elsewhere. -/
def state (n : Int) : State where
  root x := if x = .slot ⟨1⟩ 1 then .ref 0 else .int 0
  heap r := if r = 0 then
      some ⟨alloc, fun _ => .int 0, fun k => if k = 0 then .int n else .int 0⟩
    else none
  root_live x r h := by
    split at h
    · cases h
      rfl
    · cases h
  field_live r b f q h hq := by
    split at h
    · cases h
      obtain hq | ⟨-, k, hq⟩ := hq
      · cases hq
      · dsimp only at hq
        split at hq <;> cases hq
    · cases h

def graph : HeapGraph := { roots := [⟨.slot ⟨1⟩ 1, [.site alloc]⟩], edges := [] }

/-- The names 0 and 1 stand for the indices 0 and 1. -/
def naming : Naming := ⟨fun n => n.toNat, fun _ => .slot ⟨1⟩ 1, fun _ => 0⟩

/-- The element under the name 0 is 5, that under the name 1 is not. -/
def frame : Frame PathStore :=
  ⟨{ constraints := [⟨.read (.slot ⟨1⟩ 1) (.element 0), .eq, .const 5, ⟨0⟩⟩,
      ⟨.read (.slot ⟨1⟩ 1) (.element 1), .ne, .const 5, ⟨1⟩⟩] }, {}⟩

theorem covers_state (n : Int) : graph.Covers (state n) := by
  have hheap : ∀ r b, (state n).heap r = some b → b.site = alloc ∧ ∀ f q, ¬ b.Holds f (.ref q) := by
    intro r b hb
    unfold state at hb
    dsimp only at hb
    split at hb
    · cases hb
      refine ⟨rfl, fun f q hq => ?_⟩
      obtain hq | ⟨-, k, hq⟩ := hq
      · cases hq
      · dsimp only at hq
        split at hq <;> cases hq
    · cases hb
  constructor
  · rintro x y hx ⟨r, hr, b, hb, rfl⟩
    rw [(hheap r b hb).1]
    unfold state at hr
    dsimp only at hr
    split at hr
    · rename_i hx
      rw [hx]
      decide
    · cases hr
  · rintro x f y ⟨r, b, q, hb, -, hq, -⟩
    exact absurd hq ((hheap r b hb).2 f q)

theorem executes_arrayStore :
    (state 0).Executes site (.arrayStore 1 (.slot 2) (.const 5)) (state 5) := by
  refine ⟨0, rfl, 0, _, rfl, rfl, rfl, fun q => ?_⟩
  by_cases hq : q = 0
  · subst hq
    show some (Object.mk _ _ _) = some (Object.mk _ _ _)
    congr 2
    funext k
    by_cases hk : k = 0
    · rw [if_pos hk, if_pos hk]
      rfl
    · dsimp only
      rw [if_neg hk, if_neg hk, if_neg hk]
  · show (if q = 0 then _ else _) = if q = 0 then _ else if q = 0 then _ else _
    rw [if_neg hq, if_neg hq, if_neg hq]

theorem satisfies_after : ((state 5).valuationIn naming).Satisfies frame.store := by
  intro c hc
  obtain rfl | hc := List.mem_cons.1 hc
  · exact ⟨.int 5, .int 5, rfl, rfl, rfl⟩
  · rw [List.mem_singleton.1 hc]
    exact ⟨.int 0, .int 5, rfl, rfl, rfl⟩

theorem mem_paths {v : AccessPath} (hv : v ∈ frame.store.paths) :
    ∃ n, v = ⟨.slot ⟨1⟩ 1, [.element n]⟩ := by
  obtain ⟨c, hc, hv⟩ := List.mem_flatMap.1 hv
  obtain rfl | hc := List.mem_cons.1 hc
  · exact ⟨0, List.mem_singleton.1 hv⟩
  · rw [List.mem_singleton.1 hc] at hv
    exact ⟨1, List.mem_singleton.1 hv⟩

/-- With the index in local 2, `v1[v2] = 5` leaves the case in which the name 0 is the written
index, which the state before satisfies, and no other case agrees with it. -/
theorem visit_arrayStore_two_names :
    graph.Covers (state 0) ∧
      (state 0).Executes site (.arrayStore 1 (.slot 2) (.const 5)) (state 5) ∧
      ((state 5).valuationIn naming).Satisfies frame.store ∧
      ∃ rest g, PathM.visit graph site (.arrayStore 1 (.slot 2) (.const 5)) frame = .ok rest g ∧
        (∃ s ∈ g.store :: rest,
          s.feasible = true ∧ ((state 0).valuationIn naming).Satisfies s) ∧
        (g.store :: rest).Pairwise fun s t =>
          ∀ V : Valuation, ¬ (V.Satisfies s ∧ V.Satisfies t) := by
  have hwhole : ∀ v ∈ frame.store.paths, v.ReadsElementsWhole := by
    intro v hv f hf _
    obtain ⟨n, rfl⟩ := mem_paths hv
    rw [List.mem_singleton.1 hf]
    exact ⟨rfl, rfl⟩
  have hpicks : ∀ v ∈ frame.store.paths, naming.Picks v := by
    intro v hv
    obtain ⟨n, rfl⟩ := mem_paths hv
    exact Naming.picks_of_known
  obtain ⟨hcovers, hexclusive⟩ := PathM.visit_arrayStore_partitions graph site 1 (.slot 2)
    (.const 5) frame rfl rfl hwhole
  obtain ⟨rest, g, hrun, hcase⟩ :=
    hcovers naming _ _ (covers_state 0) executes_arrayStore hpicks satisfies_after
  exact ⟨covers_state 0, executes_arrayStore, satisfies_after, rest, g, hrun, hcase,
    hexclusive (by decide) rest g hrun⟩

end TwoNames

end Refuter
