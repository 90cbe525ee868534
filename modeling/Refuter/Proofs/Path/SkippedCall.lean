import Refuter.PathStore.Calls
import Refuter.Proofs.Path.Tracking
import Refuter.Proofs.Reading
import Mathlib.Tactic.ByContra

/-!
# Calls that are stepped over

A callee that is not explored may change its result, the fields and statics of its mod-set and,
if the mod-set lists the contents of arrays, the elements of any array. Stepping over the call
forgets the constraints that read the result or something listed. Elements are read under names of
their own, which the contents do not match, so these reads survive. `skipSound_iff` says for which
paths stepping over a call is sound.
-/

namespace Refuter

open StoreM

/-! ## 1. Reading a state -/

/-- What the names in a store stand for: the index behind an index name, the location behind a
choice, and the object behind a site. -/
structure Naming where
  index : UInt64 → Int
  location : Nat → Location
  object : AllocSite → Ref

namespace Naming

/-- What an object holds. An element is read at the index that its name stands for. -/
def read (N : Naming) (b : Object) : Field → Value
  | .element n => b.element (N.index n)
  | f => b.field f

/-- A site stands for an object that was created there. -/
def Fits (N : Naming) (σ : State) : Prop := ∀ s b, σ.heap (N.object s) = some b → b.site = s

end Naming

namespace State

/-- The value at the end of a chain of fields; there is none beyond null. -/
def chase (σ : State) (N : Naming) : Value → List Field → Option Value
  | x, [] => some x
  | .ref r, f :: rest => (σ.heap r).bind fun b => σ.chase N (N.read b f) rest
  | .int _, _ :: _ => none

/-- The value of a location. -/
def start (σ : State) (N : Naming) : Location → Value
  | .site s => .ref (N.object s)
  | .index n => .int (N.index n)
  | x => σ.root x

/-- Values of all paths. -/
def valuationIn (σ : State) (N : Naming) : Valuation := fun v =>
  σ.chase N (σ.start N (v.base.pick N.location)) v.fields

variable {σ σ' : State} {N : Naming} {r q : Ref} {b : Object} {f : Field}

/-- What an object holds is live. -/
theorem isSome_of_read (hb : σ.heap r = some b) (hq : N.read b f = .ref q) :
    (σ.heap q).isSome = true := by
  cases f with
  | element n => exact σ.field_live r b .contents q hb (.inr ⟨rfl, _, hq⟩)
  | named | contents | length => exact σ.field_live r b _ q hb (.inl hq)

theorem start_of_isRoot {x : Location} (hx : x.isRoot = true) : σ.start N x = σ.root x := by
  cases x with
  | slot | result | global => rfl
  | site | index => cases hx

end State

/-! ## 2. What a call changes -/

/-- The roots that a call may change. -/
def Location.IsWritten (result : Option Location) (modifies : List Field) (x : Location) : Prop :=
  result = some x ∨ ∃ f ∈ modifies, x = .global f

/-- A call changes only its result, the listed fields and statics, and all elements if the contents
of arrays are listed. New objects are of the sites `creates`. -/
structure State.Calls (creates : AllocSite → Prop) (result : Option Location)
    (modifies : List Field) (σ σ' : State) : Prop where
  root : ∀ x, ¬ x.IsWritten result modifies → σ'.root x = σ.root x
  object : ∀ r b, σ.heap r = some b → ∃ b', σ'.heap r = some b' ∧ b'.site = b.site ∧
    (∀ f, f ∉ modifies → b'.field f = b.field f) ∧
    (.contents ∉ modifies → b'.element = b.element)
  created : ∀ r b, σ'.heap r = some b → σ.heap r = none → creates b.site

namespace AccessPath

/-- Constraints on the path are forgotten: it starts at the result or reads something listed. -/
def isForgotten (result : Option Location) (modifies : List Field) (v : AccessPath) : Bool :=
  result.map .known = some v.base || PathM.mayBeWritten modifies v

/-- The call may change what the path reads under a name that the mod-set does not match: an
element of an array, a choice that may be a written root, or a part of a new object. -/
inductive Exposed (creates : AllocSite → Prop) (result : Option Location) (modifies : List Field)
    (v : AccessPath) : Prop where
  | element {f : Field} {x : Location} (hcontents : .contents ∈ modifies) (hf : f ∈ v.fields)
      (helement : f.isElement = true) (hx : x ∈ v.base.candidates) (hindex : x.index? = none)
  | choice {x : Location} (hchoice : v.base.isChoice = true) (hx : x ∈ v.base.candidates)
      (hwritten : x.IsWritten result modifies)
  | created {s : AllocSite} (hfields : v.fields ≠ []) (hs : .site s ∈ v.base.candidates)
      (hcreates : creates s)

variable {creates : AllocSite → Prop} {result : Option Location} {modifies : List Field}
  {v : AccessPath}

theorem not_mem_modifies (hkept : v.isForgotten result modifies = false) {f : Field}
    (hf : f ∈ v.fields) : f ∉ modifies := by
  intro hmem
  unfold isForgotten PathM.mayBeWritten at hkept
  rw [List.any_eq_true.2 ⟨f, hf, decide_eq_true hmem⟩, Bool.true_or, Bool.or_true] at hkept
  cases hkept

/-- A path that is neither forgotten nor exposed starts at a root that keeps its value. -/
theorem not_isWritten_pick (hkept : v.isForgotten result modifies = false)
    (hexposed : ¬ v.Exposed creates result modifies) {location : Nat → Location}
    (hpick : v.base.pick location ∈ v.base.candidates) :
    ¬ (v.base.pick location).IsWritten result modifies := by
  intro hwritten
  obtain ⟨base, fields⟩ := v
  cases base with
  | choice i cs => exact hexposed (.choice rfl hpick hwritten)
  | known x =>
    refine Bool.eq_false_iff.1 hkept ?_
    obtain hresult | ⟨f, hf, hx⟩ := hwritten
    · obtain rfl : result = some x := hresult
      simp [isForgotten]
    · obtain rfl : x = .global f := hx
      simp [isForgotten, PathM.mayBeWritten, Pointer.global?, hf]

end AccessPath

namespace State.Calls

variable {creates : AllocSite → Prop} {result : Option Location} {modifies : List Field}
  {σ σ' : State} {N : Naming} {v : AccessPath}

/-- A chain reads the same before and after if it reads nothing listed, no element in case the
contents are listed, and does not start at a new object. -/
theorem chase_eq (h : σ.Calls creates result modifies σ') {fields : List Field} {y : Value}
    (hy : fields ≠ [] → ∀ r, y = .ref r → σ.heap r = none → σ'.heap r = none)
    (hfields : ∀ f ∈ fields, f ∉ modifies)
    (helement : .contents ∈ modifies → ∀ f ∈ fields, f.isElement = false) :
    σ'.chase N y fields = σ.chase N y fields := by
  induction fields generalizing y with
  | nil => simp only [chase]
  | cons f rest ih =>
    cases y with
    | int n => rfl
    | ref r =>
      simp only [chase]
      cases hb : σ.heap r with
      | none =>
        rw [hy (List.cons_ne_nil f rest) r rfl hb]
        rfl
      | some b =>
        obtain ⟨b', hb', -, hfield, helements⟩ := h.object r b hb
        have hread : N.read b' f = N.read b f := by
          cases f with
          | element n =>
            refine congrFun (helements fun hcontents => ?_) _
            cases helement hcontents _ List.mem_cons_self
          | named | contents | length => exact hfield _ (hfields _ List.mem_cons_self)
        rw [hb', Option.bind_some, Option.bind_some, hread]
        refine ih ?_ (fun g hg => hfields g (List.mem_cons_of_mem _ hg))
          fun hcontents g hg => helement hcontents g (List.mem_cons_of_mem _ hg)
        -- what a live object holds is live
        intro _ q hq hnone
        have hlive := isSome_of_read hb hq
        rw [hnone] at hlive
        cases hlive

theorem start_eq (h : σ.Calls creates result modifies σ') {x : Location}
    (hx : ¬ x.IsWritten result modifies) : σ'.start N x = σ.start N x := by
  cases x with
  | site | index => rfl
  | slot | result | global => exact h.root _ hx

/-- A chain starts at a new object only if its path is exposed. -/
theorem heap_start_eq_none (h : σ.Calls creates result modifies σ') (hN : N.Fits σ')
    (hexposed : ¬ v.Exposed creates result modifies) {x : Location} (hx : x ∈ v.base.candidates)
    (hfields : v.fields ≠ []) {r : Ref} (hr : σ.start N x = .ref r) (hnone : σ.heap r = none) :
    σ'.heap r = none := by
  cases x with
  | index => cases hr
  | site s =>
    cases hr
    by_contra hsome
    obtain ⟨b, hb⟩ := Option.ne_none_iff_exists'.1 hsome
    have hcreates := h.created _ b hb hnone
    rw [hN s b hb] at hcreates
    exact hexposed (.created hfields hx hcreates)
  | slot | result | global =>
    have hlive := σ.root_live _ r hr
    rw [hnone] at hlive
    cases hlive

/-- A path that is neither forgotten nor exposed reads the same before and after the call. -/
theorem valuationIn_eq (h : σ.Calls creates result modifies σ') (hN : N.Fits σ')
    (hkept : v.isForgotten result modifies = false)
    (hexposed : ¬ v.Exposed creates result modifies)
    (hpick : v.base.pick N.location ∈ v.base.candidates) :
    σ'.valuationIn N v = σ.valuationIn N v := by
  have hstart : σ'.start N (v.base.pick N.location) = σ.start N (v.base.pick N.location) :=
    h.start_eq (AccessPath.not_isWritten_pick hkept hexposed hpick)
  unfold valuationIn
  rw [hstart]
  cases hindex : (v.base.pick N.location).index? with
  | some n =>
    -- an index is no object, so there is nothing to read from it
    cases hx : v.base.pick N.location with
    | index => cases v.fields <;> rfl
    | slot | result | global | site =>
      rw [hx] at hindex
      cases hindex
  | none =>
    exact h.chase_eq (fun hfields _ => h.heap_start_eq_none hN hexposed hpick hfields)
      (fun _ => AccessPath.not_mem_modifies hkept) fun hcontents f hf =>
        Bool.eq_false_iff.2 fun hf' => hexposed (.element hcontents hf hf' hpick hindex)

end State.Calls

/-! ## 3. What stepping over a call leaves -/

namespace PathM

variable {f : Frame PathStore}

theorem mentions_eq_any (c : Constraint) (p : Pointer) :
    c.mentions p = c.paths.any (·.base = p) := by
  unfold Constraint.mentions Term.mentions Constraint.paths
  rw [List.any_append]

/-- Stepping over a call always ends and keeps exactly the constraints without a forgotten path. -/
theorem ends_skipCall (target : Option Local) (callee : Method) (args : List Operand)
    (caller : Site) :
    Ends (skipCall (.invoke target callee args) caller) f fun _ g =>
      g.store.constraints = f.store.constraints.filter fun c =>
        !c.paths.any (·.isForgotten (target.map (.slot caller.method)) callee.modifies) := by
  unfold skipCall
  rw [ends_bind]
  show Ends (pure _) f _
  rw [ends_pure]
  cases target with
  | none =>
    simp only [ends_bind, ends_pure]
    refine (ends_dropWhere_filter _).mono fun _ g hg => ?_
    rw [hg.2]
    simp [AccessPath.isForgotten]
  | some d =>
    simp only [ends_bind, ends_pure]
    refine (ends_dropMentioning_filter _).mono fun _ g hg => ?_
    refine (ends_dropWhere_filter _).mono fun _ g' hg' => ?_
    rw [hg'.2, hg.2, List.filter_filter]
    refine List.filter_congr fun c _ => ?_
    rw [mentions_eq_any, Bool.eq_iff_iff]
    simp only [AccessPath.isForgotten, Bool.and_eq_true, Bool.not_eq_true', List.any_eq_false,
      Bool.or_eq_true, decide_eq_true_eq, Option.map_some, Option.some.injEq, not_or]
    constructor
    · rintro ⟨hwritten, hbase⟩ v hv
      exact ⟨fun heq => hbase v hv heq.symm, hwritten v hv⟩
    · intro h
      exact ⟨fun v hv => (h v hv).2, fun v hv heq => (h v hv).1 heq.symm⟩

end PathM

/-! ## 4. States that tell the calls apart -/

/-- Every choice is `x`, and the object 0 stands for `x` if that is a site. -/
def Naming.only (x : Location) : Naming :=
  ⟨fun _ => 0, fun _ => x, fun s => if s = x.site?.getD default then 0 else 1⟩

/-- One object of the site `a`, all of whose fields hold the object itself. The roots of `isNull`
are null and the others hold the object. -/
def State.ring (a : AllocSite) (isNull : Location → Bool) (emptied : Bool) : State where
  root x := if isNull x then .int 0 else .ref 0
  heap r := if r = 0 then some ⟨a, fun _ => .ref 0, fun _ => if emptied then .int 0 else .ref 0⟩
    else none
  root_live x r h := by
    split at h
    · cases h
    · cases h
      rfl
  field_live r b f q h hq := by
    split at h
    · cases h
      obtain hq | ⟨-, n, hq⟩ := hq
      · cases hq
        rfl
      · dsimp only at hq
        split at hq
        · cases hq
        · cases hq
          rfl
    · cases h

theorem State.null_dangles_nowhere (_ : Location) (r : Ref) (h : Value.int 0 = .ref r) :
    (none : Option Object).isSome = true := by
  cases h

theorem State.none_dangles_nowhere (_ : Ref) (b : Object) (f : Field) (q : Ref) (h : none = some b)
    (_ : b.Holds f (.ref q)) : (none : Option Object).isSome = true := by
  cases h

/-- No object at all. -/
def State.blank : State where
  root _ := .int 0
  heap _ := none
  root_live := null_dangles_nowhere
  field_live := none_dangles_nowhere

namespace State

variable {creates : AllocSite → Prop} {result : Option Location} {modifies : List Field}
  {N : Naming} {a : AllocSite} {x : Location} {isNull isNull' : Location → Bool}
  {emptied emptied' : Bool} {fields : List Field}

theorem eq_null_of_chase_null {σ : State} {y : Value}
    (hy : σ.chase N (.int 0) fields = some y) : y = .int 0 := by
  cases fields with
  | nil =>
    cases hy
    rfl
  | cons => cases hy

theorem chase_ring : (ring a isNull false).chase N (.ref 0) fields = some (.ref 0) := by
  induction fields with
  | nil => rfl
  | cons f rest ih => cases f <;> exact ih

/-- A chain through an element ends at null or leads nowhere. -/
theorem eq_null_of_chase_ring {f : Field} {y : Value} (hf : f ∈ fields)
    (helement : f.isElement = true)
    (hy : (ring a isNull true).chase N (.ref 0) fields = some y) : y = .int 0 := by
  induction fields with
  | nil => cases hf
  | cons g rest ih =>
    cases g with
    | element n => exact eq_null_of_chase_null hy
    | named | contents | length =>
      obtain rfl | hf := List.mem_cons.1 hf
      · cases helement
      · exact ih hf hy

theorem start_ring (hindex : x.index? = none) (hx : isNull x = false ∨ x.isSite = true) :
    (ring a isNull emptied).start (.only x) x = .ref 0 := by
  cases x with
  | site s => exact congrArg Value.ref (if_pos rfl)
  | index n => cases hindex
  | slot | result | global =>
    have hnull := hx.resolve_right (by simp [Location.isSite])
    show (if isNull _ then _ else _) = _
    rw [hnull]
    rfl

theorem fits_ring : (Naming.only x).Fits (ring (x.site?.getD default) isNull emptied) := by
  intro s b hb
  unfold Naming.only ring at hb
  dsimp only at hb
  by_cases hs : s = x.site?.getD default
  · rw [if_pos hs, if_pos rfl] at hb
    cases hb
    exact hs.symm
  · rw [if_neg hs] at hb
    cases hb

/-- The call changes roots that it may write, and elements if the contents are listed. -/
theorem calls_ring (hroot : ∀ y, ¬ y.IsWritten result modifies → isNull' y = isNull y)
    (helement : .contents ∉ modifies → emptied' = emptied) :
    (ring a isNull emptied).Calls creates result modifies (ring a isNull' emptied') := by
  constructor
  · intro y hy
    show (if isNull' y then _ else _) = if isNull y then _ else _
    rw [hroot y hy]
  · intro r b hb
    unfold ring at hb ⊢
    dsimp only at hb ⊢
    split at hb
    · cases hb
      refine ⟨_, if_pos (by assumption), rfl, fun _ _ => rfl, fun hcontents => ?_⟩
      rw [helement hcontents]
    · cases hb
  · intro r b hb hnone
    unfold ring at hb hnone
    dsimp only at hb hnone
    split at hb
    · rw [if_pos (by assumption)] at hnone
      cases hnone
    · cases hb

/-- The call creates the object. -/
theorem calls_blank (ha : creates a) :
    blank.Calls creates result modifies (ring a (fun _ => true) false) := by
  refine ⟨fun _ _ => rfl, fun _ _ hb => (by cases hb), fun r b hb _ => ?_⟩
  unfold ring at hb
  dsimp only at hb
  split at hb
  · cases hb
    exact ha
  · cases hb

end State

theorem Pointer.pick_of_mem {p : Pointer} {x : Location} (hx : x ∈ p.candidates) :
    p.pick (Naming.only x).location = x := by
  cases p with
  | known y => exact (SortedSet.mem_singleton.1 hx).symm
  | choice i cs => rfl

theorem State.valuationIn_only {σ : State} {v : AccessPath} {x : Location}
    (hx : x ∈ v.base.candidates) :
    σ.valuationIn (.only x) v = σ.chase (.only x) (σ.start (.only x) x) v.fields := by
  unfold State.valuationIn
  rw [Pointer.pick_of_mem hx]

theorem Location.index?_of_isRoot {x : Location} (hx : x.isRoot = true) : x.index? = none := by
  cases x with
  | slot | result | global | site => rfl
  | index => cases hx

/-- The roots that a call may change are locals and statics. -/
theorem Location.IsWritten.isRoot {target : Option Local} {m : MethodId} {modifies : List Field}
    {x : Location} (h : x.IsWritten (target.map (.slot m)) modifies) : x.isRoot = true := by
  obtain htarget | ⟨f, -, rfl⟩ := h
  · obtain ⟨d, -, rfl⟩ := Option.map_eq_some_iff.1 htarget
    rfl
  · rfl

/-! ## 5. When stepping over a call is sound -/

/-- Stepping over the call is sound for stores that read only paths of `P`: if every constraint
holds after the call, those that are left hold before it. -/
def SkipSound (target : Option Local) (callee : Method) (args : List Operand) (caller : Site)
    (creates : AllocSite → Prop) (P : AccessPath → Prop) : Prop :=
  ∀ (N : Naming) (σ σ' : State) (f : Frame PathStore), N.Fits σ' →
    σ.Calls creates (target.map (.slot caller.method)) callee.modifies σ' →
    (∀ v ∈ f.store.paths, P v ∧ v.base.pick N.location ∈ v.base.candidates) →
    (σ'.valuationIn N).Satisfies f.store →
    Ends (PathM.skipCall (.invoke target callee args) caller) f fun _ g =>
      (σ.valuationIn N).Satisfies g.store

section

variable {target : Option Local} {callee : Method} {args : List Operand} {caller : Site}
  {creates : AllocSite → Prop} {P : AccessPath → Prop} {σ : State} {v : AccessPath}

/-- Constraints without forgotten and exposed paths hold before the call as they hold after it. -/
theorem skipSound_of_forall (h : ∀ v, P v →
      v.isForgotten (target.map (.slot caller.method)) callee.modifies = true ∨
      ¬ v.Exposed creates (target.map (.slot caller.method)) callee.modifies) :
    SkipSound target callee args caller creates P := by
  intro N σ σ' f hN hcalls hpaths hholds
  refine (PathM.ends_skipCall target callee args caller).mono fun _ g hg c hc => ?_
  rw [hg, List.mem_filter, Bool.not_eq_true', List.any_eq_false] at hc
  obtain ⟨hmem, hkept⟩ := hc
  refine (Constraint.holds_congr fun v hv => ?_).1 (hholds c hmem)
  obtain ⟨hP, hpick⟩ := hpaths v (List.mem_flatMap.2 ⟨c, hmem, hv⟩)
  exact hcalls.valuationIn_eq hN (Bool.eq_false_iff.2 (hkept v hv))
    ((h v hP).resolve_left (hkept v hv)) hpick

/-- A path that reads the object of the ring after the call, and is not forgotten, is not null
before it. -/
theorem SkipSound.ne_null (h : SkipSound target callee args caller creates P) (hv : P v)
    (hkept : v.isForgotten (target.map (.slot caller.method)) callee.modifies = false)
    {x : Location} (hx : x ∈ v.base.candidates) (hindex : x.index? = none)
    {isNull : Location → Bool} (hnull : isNull x = false ∨ x.isSite = true)
    (hcalls : σ.Calls creates (target.map (.slot caller.method)) callee.modifies
      (.ring (x.site?.getD default) isNull false)) :
    ∃ y, σ.chase (.only x) (σ.start (.only x) x) v.fields = some y ∧ y ≠ .int 0 := by
  let c : Constraint := ⟨.var v, .ne, .const 0, ⟨0⟩⟩
  let f : Frame PathStore := ⟨{ constraints := [c] }, {}⟩
  have hpaths : ∀ w ∈ f.store.paths,
      P w ∧ w.base.pick (Naming.only x).location ∈ w.base.candidates := by
    intro w hw
    obtain rfl : w = v := by simpa [PathStore.paths, f, c, Constraint.paths, Term.paths] using hw
    rw [Pointer.pick_of_mem hx]
    exact ⟨hv, hx⟩
  have hafter : (State.ring (x.site?.getD default) isNull false).valuationIn (.only x) v =
      some (.ref 0) := by
    rw [State.valuationIn_only hx, State.start_ring hindex hnull, State.chase_ring]
  obtain ⟨_, g, hrun, hholds⟩ := h (.only x) σ _ f State.fits_ring hcalls hpaths fun d hd => by
    obtain rfl := List.mem_singleton.1 hd
    exact ⟨_, _, hafter, rfl, rfl⟩
  have hg := (ends_iff_of_eq hrun).1 (PathM.ends_skipCall target callee args caller)
  have hmem : c ∈ g.store.constraints := by
    rw [hg]
    simp [f, c, Constraint.paths, Term.paths, hkept]
  obtain ⟨y, z, hy, hz, htruth⟩ := hholds c hmem
  cases hz
  rw [← State.valuationIn_only hx]
  exact ⟨y, hy, of_decide_eq_true (Option.some.inj htruth)⟩

/-- A path that is not forgotten is not exposed: in each case it reads the object of the ring after
the call, and null or nothing before it. -/
theorem SkipSound.not_exposed (h : SkipSound target callee args caller creates P) (hv : P v)
    (hkept : v.isForgotten (target.map (.slot caller.method)) callee.modifies = false) :
    ¬ v.Exposed creates (target.map (.slot caller.method)) callee.modifies := by
  intro hexposed
  cases hexposed with
  | @element f x hcontents hf helement hx hindex =>
    let a := x.site?.getD default
    have hcalls : (State.ring a (fun _ => false) true).Calls creates
        (target.map (.slot caller.method)) callee.modifies (.ring a (fun _ => false) false) :=
      State.calls_ring (fun _ _ => rfl) fun hnot => absurd hcontents hnot
    obtain ⟨y, hy, hne⟩ := h.ne_null hv hkept hx hindex (.inl rfl) hcalls
    rw [State.start_ring hindex (.inl rfl)] at hy
    exact hne (State.eq_null_of_chase_ring hf helement hy)
  | @choice x _ hx hwritten =>
    let a := x.site?.getD default
    have hcalls : (State.ring a (· = x) false).Calls creates
        (target.map (.slot caller.method)) callee.modifies (.ring a (fun _ => false) false) := by
      refine State.calls_ring (fun z hz => ?_) fun _ => rfl
      refine (decide_eq_false ?_).symm
      rintro rfl
      exact hz hwritten
    have hroot := hwritten.isRoot
    obtain ⟨y, hy, hne⟩ :=
      h.ne_null hv hkept hx (Location.index?_of_isRoot hroot) (.inl rfl) hcalls
    have hstart : (State.ring a (· = x) false).start (.only x) x = .int 0 := by
      rw [State.start_of_isRoot hroot]
      exact if_pos (decide_eq_true rfl)
    rw [hstart] at hy
    exact hne (State.eq_null_of_chase_null hy)
  | @created s hfields hs hcreates =>
    obtain ⟨y, hy, hne⟩ := h.ne_null hv hkept hs rfl (.inr rfl) (State.calls_blank hcreates)
    obtain ⟨f, rest, hcons⟩ := List.exists_cons_of_ne_nil hfields
    rw [hcons] at hy
    cases hy

end

/-- Stepping over a call is sound exactly for the paths that are forgotten or that the call cannot
change under another name. -/
theorem skipSound_iff (target : Option Local) (callee : Method) (args : List Operand)
    (caller : Site) (creates : AllocSite → Prop) (P : AccessPath → Prop) :
    SkipSound target callee args caller creates P ↔ ∀ v, P v →
      v.isForgotten (target.map (.slot caller.method)) callee.modifies = true ∨
      ¬ v.Exposed creates (target.map (.slot caller.method)) callee.modifies := by
  refine ⟨fun h v hv => ?_, skipSound_of_forall⟩
  rw [Classical.or_iff_not_imp_left, Bool.not_eq_true]
  exact h.not_exposed hv

namespace ArrayCall

/-- The element of `v1` that was read under the first index name. -/
def element : AccessPath := ⟨.slot ⟨1⟩ 1, [.element 0]⟩

/-- Writes elements of arrays. -/
def fill : Method := { id := ⟨2⟩, className := "A", name := "fill", modifies := [.contents] }

/-- What `v3 != 0` becomes before `v3 = v1[v2]`. -/
def loaded : Frame PathStore :=
  ⟨{ constraints := [⟨.var element, .ne, .const 0, ⟨0⟩⟩,
      ⟨.bare (.known (.index 0)), .eq, .bare (.slot ⟨1⟩ 2), ⟨1⟩⟩] }, {}⟩

/-- `v1` is an array and `v2` is zero. -/
def array (emptied : Bool) : State := .ring default (· = .slot ⟨1⟩ 2) emptied

/-- A call that writes elements takes the array from null elements to others. The constraints hold
after it, but the one on the element is left and does not hold before. -/
theorem skipCall_keeps_element :
    (Naming.only (.slot ⟨1⟩ 1)).Fits (array false) ∧
    (array true).Calls (fun _ => False) none fill.modifies (array false) ∧
    ((array false).valuationIn (.only (.slot ⟨1⟩ 1))).Satisfies loaded.store ∧
    Ends (PathM.skipCall (.invoke none fill [.slot 1]) { method := ⟨1⟩ }) loaded fun _ g =>
      ¬ ((array true).valuationIn (.only (.slot ⟨1⟩ 1))).Satisfies g.store := by
  refine ⟨State.fits_ring, State.calls_ring (fun _ _ => rfl) (by decide), ?_, ?_⟩
  · intro c hc
    obtain rfl | hc := List.mem_cons.1 hc
    · exact ⟨.ref 0, .int 0, rfl, rfl, rfl⟩
    · obtain rfl := List.mem_singleton.1 hc
      exact ⟨.int 0, .int 0, rfl, rfl, rfl⟩
  · refine (PathM.ends_skipCall none fill [.slot 1] { method := ⟨1⟩ }).mono fun _ g hg hholds => ?_
    have hkept : ⟨.var element, .ne, .const 0, ⟨0⟩⟩ ∈ g.store.constraints := by
      rw [hg]
      exact List.mem_filter.2 ⟨List.mem_cons_self, by decide⟩
    obtain ⟨a, b, ha, hb, htruth⟩ := hholds _ hkept
    cases ha
    cases hb
    cases htruth

end ArrayCall

end Refuter
