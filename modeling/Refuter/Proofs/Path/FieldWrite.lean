import Refuter.Proofs.Path.Tracking

/-!
# Field writes on a path store

A field write changes what every access path through the written object reads. A visit puts the
written value for the reads through the base and forgets the first reads through pointers that may
be the same object; reads of the field further down a chain stay as they are. `storeSound_iff` says
exactly for which paths that is sound.
-/

namespace Refuter

open StoreM

/-! ## 1. Reading a state -/

/-- The value at the end of a chain of fields; there is none beyond null. -/
def State.follow (σ : State) : Value → List Field → Option Value
  | x, [] => some x
  | .ref r, f :: rest => (σ.heap r).bind fun b => σ.follow (b.field f) rest
  | .int _, _ :: _ => none

/-- The path starts at a local, a return slot or a static field. -/
def AccessPath.isRooted (v : AccessPath) : Bool :=
  match v.base with
  | .known x => x.isRoot
  | .choice .. => false

/-- Values of the paths from a root. Other pointers stand for some object. -/
def State.valuation (σ : State) : Valuation := fun v =>
  match v.base with
  | .known x => if x.isRoot then σ.follow (σ.root x) v.fields else some (.ref 0)
  | .choice .. => some (.ref 0)

theorem State.sitesAreRefs_valuation (σ : State) : σ.valuation.SitesAreRefs := by
  rintro ⟨base, fields⟩ hv
  refine ⟨0, ?_⟩
  unfold State.valuation
  cases base with
  | choice => rfl
  | known x =>
    cases x with
    | site => rfl
    | index => rfl
    | slot | result | global =>
      unfold AccessPath.isSite Pointer.isSite Pointer.candidates at hv
      simp [SortedSet.singleton, Location.isSite] at hv

theorem State.valuation_of_isRoot {σ : State} {x : Location} (hx : x.isRoot = true)
    (fields : List Field) :
    σ.valuation ⟨.known x, fields⟩ = σ.follow (σ.root x) fields := if_pos hx

/-! ## 2. What a field write changes -/

section

variable {σ σ' : State} {x : Location} {f : Field} {v : Value}

theorem State.Updates.root_eq {change : Object → Object} (h : σ.Updates σ' x change) :
    σ'.root = σ.root := by
  obtain ⟨-, -, -, -, hroot, -⟩ := h
  exact hroot

/-- Objects keep their other fields. -/
theorem State.Updates.field_eq {g : Field} {q : Ref} (h : σ.Updates σ' x (State.setField f v))
    (hg : g ≠ f) : (σ'.heap q).map (·.field g) = (σ.heap q).map (·.field g) := by
  obtain ⟨r, b, -, hb, -, hheap⟩ := h
  rw [hheap q]
  by_cases hq : q = r
  · rw [if_pos hq, hq, hb]
    show some (if g = f then v else b.field g) = some (b.field g)
    rw [if_neg hg]
  · rw [if_neg hq]

theorem State.follow_cons (σ : State) (r : Ref) (f : Field) (rest : List Field) :
    σ.follow (.ref r) (f :: rest) = ((σ.heap r).map (·.field f)).bind (σ.follow · rest) := by
  show (σ.heap r).bind _ = _
  rw [Option.bind_map]
  rfl

/-- A chain without the written field reads the same. -/
theorem State.Updates.follow_eq (h : σ.Updates σ' x (State.setField f v)) {fields : List Field}
    (hf : ¬ f ∈ fields) (y : Value) : σ'.follow y fields = σ.follow y fields := by
  induction fields generalizing y with
  | nil => cases y <;> rfl
  | cons g rest ih =>
    have hg : g ≠ f := fun hgf => hf (hgf ▸ List.mem_cons_self)
    have hrest : ¬ f ∈ rest := fun hmem => hf (List.mem_cons_of_mem _ hmem)
    cases y with
    | int => rfl
    | ref r =>
      rw [State.follow_cons, State.follow_cons, h.field_eq hg]
      congr 1
      funext y
      exact ih hrest y

/-- A read of the field of another object is not affected. -/
theorem State.Updates.follow_other (h : σ.Updates σ' x (State.setField f v)) {q : Ref}
    {rest : List Field} (hq : σ.root x ≠ .ref q) (hf : ¬ f ∈ rest) :
    σ'.follow (.ref q) (f :: rest) = σ.follow (.ref q) (f :: rest) := by
  have hsame := h
  obtain ⟨r, b, hr, -, -, hheap⟩ := hsame
  have hne : q ≠ r := by
    rintro rfl
    exact hq hr
  rw [State.follow_cons, State.follow_cons, hheap q, if_neg hne]
  congr 1
  funext y
  exact h.follow_eq hf y

/-- The written field of the base reads the written value. -/
theorem State.Updates.follow_self (h : σ.Updates σ' x (State.setField f v)) (rest : List Field) :
    σ'.follow (σ'.root x) (f :: rest) = σ'.follow v rest := by
  rw [h.root_eq]
  obtain ⟨r, b, hr, hb, -, hheap⟩ := h
  rw [hr, State.follow_cons, hheap r, if_pos rfl]
  show σ'.follow (if f = f then v else b.field f) rest = _
  rw [if_pos rfl]

end

/-! ## 3. Which reads are affected -/

/-- Roots that hold the same object may alias. -/
theorem HeapGraph.Covers.mayAlias_of_root_eq {h : HeapGraph} {σ : State} {x y : Location} {r : Ref}
    (hc : h.Covers σ) (hx : x.isRoot = true) (hy : y.isRoot = true) (hrx : σ.root x = .ref r)
    (hry : σ.root y = .ref r) : h.mayAlias (.known x) (.known y) = true := by
  obtain ⟨z, hz⟩ := State.exists_points hrx
  have hz' : σ.Points y z := by
    obtain ⟨q, hq, hat⟩ := hz
    rw [hrx] at hq
    cases hq
    exact ⟨r, hry, hat⟩
  have hzx := HeapGraph.mem_ofPointer_root hx |>.2 (hc.roots x z hx hz)
  have hzy := HeapGraph.mem_ofPointer_root hy |>.2 (hc.roots y z hy hz')
  unfold HeapGraph.mayAlias
  rw [Bool.or_eq_true]
  exact .inr (List.any_eq_true.2 ⟨z, hzy, decide_eq_true hzx⟩)

/-- A path that reads the written field first and only through objects apart from the base, or not
at all, has the same value before and after. -/
theorem State.Updates.valuation_eq {h : HeapGraph} {σ σ' : State} {x : Location} {f : Field}
    {v : Value} {w : AccessPath} (hu : σ.Updates σ' x (State.setField f v)) (hc : h.Covers σ)
    (hx : x.isRoot = true) (hw : w.isRooted = true) (htail : ¬ f ∈ w.fields.tail)
    (hfirst : w.first? = some f → h.mayAlias w.base (.known x) = false) :
    σ.valuation w = σ'.valuation w := by
  obtain ⟨base, fields⟩ := w
  cases base with
  | choice => cases hw
  | known y =>
    rw [State.valuation_of_isRoot hw, State.valuation_of_isRoot hw, hu.root_eq]
    cases fields with
    | nil => cases σ.root y <;> rfl
    | cons g rest =>
      by_cases hg : g = f
      · -- a first read of `f`: the pointer is not the base, or the two may alias
        subst hg
        cases hy : σ.root y with
        | int => rfl
        | ref q =>
          have hq : σ.root x ≠ .ref q := by
            intro hxq
            have halias := hc.mayAlias_of_root_eq hw hx hy hxq
            rw [hfirst rfl] at halias
            cases halias
          exact (hu.follow_other hq htail).symm
      · have hmem : ¬ f ∈ g :: rest := fun hmem =>
          (List.mem_cons.1 hmem).elim (fun hfg => hg hfg.symm) htail
        exact (hu.follow_eq hmem _).symm

/-- What stands for a path once `field` of `base` holds `insert`. -/
def AccessPath.written (insert : Term) (base : Pointer) (field : Field) (v : AccessPath) :
    Replacement Term :=
  match v.fields with
  | f :: rest => if v.base = base && f = field then insert.extend rest else .unchanged
  | [] => .unchanged

theorem AccessPath.written_of_base_ne {insert : Term} {base : Pointer} {field : Field}
    {v : AccessPath} (h : v.base ≠ base) : v.written insert base field = .unchanged := by
  unfold AccessPath.written
  split
  · rw [if_neg (by simp [h])]
  · rfl

theorem AccessPath.written_of_bare {insert : Term} {base : Pointer} {field : Field}
    {v : AccessPath} (h : v.fields = []) : v.written insert base field = .unchanged := by
  unfold AccessPath.written
  rw [h]

theorem Term.spliceRead_eq (insert : Term) (base : Pointer) (field : Field) :
    Term.spliceRead insert base field = Term.replacePaths (AccessPath.written insert base field) :=
  rfl

section

variable {σ σ' : State} {site : Site} {base : Local} {f : Field} {value : Operand}

/-- After the write the read through the base has the written value. -/
theorem carries_written
    (hu : σ.Updates σ' (.slot site.method base) (State.setField f (σ.operand site.method value)))
    (w : AccessPath) :
    (Term.var w).Carries σ'.valuation σ'.valuation
      (w.written (value.term site) (.slot site.method base) f) := by
  obtain ⟨q, fields⟩ := w
  intro hne y hy
  unfold AccessPath.written at hne ⊢
  cases fields with
  | nil => exact hy
  | cons g rest =>
    dsimp only at hne ⊢
    split
    · rename_i hread
      rw [if_pos hread] at hne
      simp only [Bool.and_eq_true, decide_eq_true_eq] at hread
      obtain ⟨rfl, rfl⟩ := hread
      have hy : σ'.follow (σ.operand site.method value) rest = some y := by
        rw [← hu.follow_self]
        exact hy
      cases value with
      | slot l =>
        have hl : σ'.valuation ⟨.slot site.method l, rest⟩ = some y := by
          rw [Pointer.slot, State.valuation_of_isRoot rfl, hu.root_eq]
          exact hy
        cases rest with
        | nil => exact hl
        | cons => exact hl
      | const | null =>
        cases rest with
        | nil => exact hy
        | cons => exact absurd rfl hne
    · exact hy

/-- The path reads `f` at most first, and then not through `base`. -/
def AccessPath.Clear (f : Field) (base : Pointer) (w : AccessPath) : Prop :=
  w.isRooted = true ∧ ¬ f ∈ w.fields.tail ∧ (w.first? = some f → w.base ≠ base)

/-- Once the written value is put in, no read of the field through the base is left. -/
theorem clear_of_mem_written {v w : AccessPath} (hv : v.isRooted = true)
    (htail : ¬ f ∈ v.fields.tail)
    (hne : v.written (value.term site) (.slot site.method base) f ≠ .unsupported)
    (hw : w ∈ ((v.written (value.term site) (.slot site.method base) f).getD (.var v)).paths) :
    w.Clear f (.slot site.method base) := by
  obtain ⟨q, fields⟩ := v
  unfold AccessPath.written at hne hw
  cases fields with
  | nil =>
    obtain rfl := List.mem_singleton.1 hw
    exact ⟨hv, htail, fun hf => by cases hf⟩
  | cons g rest =>
    dsimp only at hne hw
    split at hw
    · rename_i hread
      rw [if_pos hread] at hne
      cases value with
      | slot l =>
        -- the value is read through the rest of the chain, which has no further `f`
        have hrest : ¬ f ∈ rest := htail
        have hw : w = ⟨.slot site.method l, rest⟩ := by
          cases rest with
          | nil => exact List.mem_singleton.1 hw
          | cons => exact List.mem_singleton.1 hw
        subst hw
        refine ⟨rfl, fun hmem => hrest (List.mem_of_mem_tail hmem), fun hf => ?_⟩
        exact absurd (List.mem_of_mem_head? hf) hrest
      | const | null =>
        cases rest with
        | nil => cases hw
        | cons => exact absurd rfl hne
    · rename_i hread
      obtain rfl := List.mem_singleton.1 hw
      refine ⟨hv, htail, fun hf hq => hread ?_⟩
      cases hf
      simp only [Bool.and_eq_true, decide_eq_true_eq]
      exact ⟨hq, trivial⟩

end

/-! ## 4. Visits -/

theorem PathStore.mem_paths {s : PathStore} {c : Constraint} {w : AccessPath}
    (hc : c ∈ s.constraints) (hw : w ∈ c.paths) : w ∈ s.paths := List.mem_flatMap.2 ⟨c, hc, hw⟩

namespace PathM

variable {σ σ' : State} {h : HeapGraph} {site : Site} {base : Local} {f : Field} {value : Operand}
  {s : Frame PathStore}

/-- Where no chain reads the written field further down, every constraint that stays holds
before. -/
theorem ends_storeField (hc : h.Covers σ)
    (hu : σ.Updates σ' (.slot site.method base) (State.setField f (σ.operand site.method value)))
    (hs : σ'.valuation.Supports s.store)
    (hpaths : ∀ w ∈ s.store.paths, w.isRooted = true ∧ ¬ f ∈ w.fields.tail) :
    Ends (storeField h (.slot site.method base) f (value.term site)) s fun _ g =>
      σ.valuation.Supports g.store := by
  unfold storeField
  rw [ends_bind, ends_store]
  split
  · -- the field is not read first, so it is not read at all
    rename_i hreads
    refine ends_pure.2 ⟨hs.feasible, fun c hcm => ?_⟩
    refine (Constraint.holds_congr fun w hw => ?_).2 (hs.all c hcm)
    obtain ⟨hroot, htail⟩ := hpaths w (PathStore.mem_paths hcm hw)
    refine hu.valuation_eq hc rfl hroot htail fun hfirst => ?_
    have hread : s.store.readsField f = true :=
      List.any_eq_true.2 ⟨w, PathStore.mem_paths hcm hw, decide_eq_true hfirst⟩
    rw [hread] at hreads
    cases hreads
  · unfold spliceRead
    rw [ends_bind, Term.spliceRead_eq]
    have hkeeps : ∀ c ∈ s.store.constraints,
        c.Keeps (fun d => d.Holds σ'.valuation ∧ ∀ w ∈ d.paths, w.Clear f (.slot site.method base))
          (c.replace (Term.replacePaths
            (AccessPath.written (value.term site) (.slot site.method base) f))) := by
      intro c hcm
      refine Constraint.keeps_replace σ'.sitesAreRefs_valuation (fun v _ => carries_written hu v)
        (hs.all c hcm) fun d hd hpd => ⟨hd, fun w hw => ?_⟩
      obtain ⟨v, hv, hne, hwv⟩ := hpd w hw
      obtain ⟨hroot, htail⟩ := hpaths v (PathStore.mem_paths hcm hv)
      exact clear_of_mem_written hroot htail hne hwv
    refine (ends_changeAll hs.feasible hkeeps).mono fun _ g hg => ?_
    rw [ends_bind]
    -- what is left reads `f` first through other pointers only, and those that may be the base are
    -- dropped
    refine (ends_dropWhere hg.feasible fun c hcm htest => ?_).mono fun _ g' hg' => ends_pure.2 hg'
    obtain ⟨hholds, hclear⟩ := hg.all c hcm
    refine (Constraint.holds_congr fun w hw => ?_).2 hholds
    obtain ⟨hroot, htail, hbase⟩ := hclear w hw
    refine hu.valuation_eq hc rfl hroot htail fun hfirst => ?_
    have hno := List.any_eq_false.1 htest w hw
    show h.mayAlias w.base (.slot site.method base) = false
    simpa [hfirst, hbase hfirst] using hno

/-- A write through a pointer apart from all that the constraints read through leaves the store as
it is. -/
theorem ends_storeField_of_apart {p : Pointer} {t : Term} (hf : s.store.feasible = true)
    (hpaths : ∀ w ∈ s.store.paths, w.base ≠ p ∧ h.mayAlias w.base p = false) :
    Ends (storeField h p f t) s fun _ g => g.store = s.store := by
  unfold storeField
  rw [ends_bind, ends_store]
  split
  · exact ends_pure.2 rfl
  · unfold spliceRead
    rw [ends_bind, Term.spliceRead_eq]
    have hsame : ∀ c ∈ s.store.constraints,
        c.replace (Term.replacePaths (AccessPath.written t p f)) = .unchanged := by
      intro c hc
      refine Constraint.replace_eq_unchanged fun w hw => ?_
      exact AccessPath.written_of_base_ne (hpaths w (PathStore.mem_paths hc hw)).1
    refine (ends_changeAll_of_unchanged hf hsame).mono fun _ g hg => ?_
    rw [ends_bind]
    refine (ends_dropWhere_of_none fun c hc => ?_).mono fun _ g' hg' => ends_pure.2 (hg'.trans hg)
    rw [hg] at hc
    refine List.any_eq_false.2 fun w hw => ?_
    simp [(hpaths w (PathStore.mem_paths hc hw)).2]

/-- A visit of a field write does what the write does, and leaves no further case. -/
theorem ends_visit_store {Q : Frame PathStore → Prop} (hf : s.store.feasible = true)
    (hx : Ends (storeField h (.slot site.method base) f (value.term site)) s fun _ g => Q g) :
    Ends (visit h site (.store base f value)) s fun rest g => rest = [] ∧ Q g := by
  unfold visit
  rw [ends_bind]
  refine ends_requireFeasible hf ?_
  dsimp only
  rw [ends_bind]
  exact hx.mono fun _ g hg => ends_pure.2 ⟨rfl, hg⟩

end PathM

/-- Visits of writes to `f` are sound for the stores that read only paths with `P`: they return, and
a state that the write takes to one with all constraints satisfies the constraints that remain. -/
def StoreSound (f : Field) (P : AccessPath → Prop) : Prop :=
  ∀ (h : HeapGraph) (site : Site) (base : Local) (value : Operand) (σ σ' : State)
    (s : Frame PathStore), h.Covers σ → h.Covers σ' → σ.Executes site (.store base f value) σ' →
    s.store.feasible = true → (∀ v ∈ s.store.paths, v.isRooted = true ∧ P v) →
    σ'.valuation.Satisfies s.store →
    ∃ g, PathM.visit h site (.store base f value) s = .ok [] g ∧ σ.valuation.Satisfies g.store

/-! ## 5. Reads further down a chain -/

namespace DeepRead

def site : Site := ⟨⟨0⟩, false⟩

/-- A local other than `x`. -/
def base (x : Location) : Local := if x = .slot ⟨0⟩ 0 then 1 else 0

theorem base_ne (x : Location) : Location.slot ⟨0⟩ (base x) ≠ x := by
  unfold base
  split
  · rename_i hx
    rw [hx]
    decide
  · rename_i hx
    exact fun h => hx h.symm

/-- The site of the object that `x` holds, and that of the object that the base holds. -/
def alloc (n : UInt32) : AllocSite := ⟨n, "A", ⟨0⟩⟩

/-- The fields of both objects may lead to the object of the base. -/
def graph (x : Location) (fields : List Field) : HeapGraph where
  roots := [⟨x, [.site (alloc 1)]⟩, ⟨.slot ⟨0⟩ (base x), [.site (alloc 2)]⟩]
  edges := fields.flatMap fun g =>
    [⟨.site (alloc 1), g, .site (alloc 2)⟩, ⟨.site (alloc 2), g, .site (alloc 2)⟩]

/-- Each of the fields leads to the object of the base. -/
def link (fields : List Field) (g : Field) : Value := if g ∈ fields then .ref 1 else .int 0

/-- As `link`, but `f` is null. -/
def cut (f : Field) (fields : List Field) (g : Field) : Value :=
  if g = f then .int 0 else link fields g

/-- `f` written to the object of the base again. -/
def tied (f : Field) (fields : List Field) (g : Field) : Value :=
  if g = f then .ref 1 else cut f fields g

theorem eq_of_link {fields : List Field} {g : Field} {r : Ref} (h : link fields g = .ref r) :
    r = 1 ∧ g ∈ fields := by
  unfold link at h
  split at h
  · cases h
    exact ⟨rfl, by assumption⟩
  · cases h

theorem eq_of_cut {f : Field} {fields : List Field} {g : Field} {r : Ref}
    (h : cut f fields g = .ref r) : r = 1 ∧ g ∈ fields := by
  unfold cut at h
  split at h
  · cases h
  · exact eq_of_link h

theorem eq_of_tied {f : Field} {fields : List Field} {g : Field} {r : Ref}
    (h : tied f fields g = .ref r) : r = 1 ∧ (g = f ∨ g ∈ fields) := by
  unfold tied at h
  split at h
  · cases h
    exact ⟨rfl, .inl (by assumption)⟩
  · exact (eq_of_cut h).imp id .inr

/-- The object of the base before the write is `cut`. -/
def before (x : Location) (f : Field) (fields : List Field) : State :=
  .pair x (.slot ⟨0⟩ (base x)) (alloc 1) (alloc 2) (link fields) (cut f fields)
    (fun _ _ h => (eq_of_link h).1 ▸ Nat.one_lt_two) (fun _ _ h => (eq_of_cut h).1 ▸ Nat.one_lt_two)

def after (x : Location) (f : Field) (fields : List Field) : State :=
  .pair x (.slot ⟨0⟩ (base x)) (alloc 1) (alloc 2) (link fields) (tied f fields)
    (fun _ _ h => (eq_of_link h).1 ▸ Nat.one_lt_two)
    (fun _ _ h => (eq_of_tied h).1 ▸ Nat.one_lt_two)

section

variable {x : Location} {f : Field} {fields : List Field}

/-- The base is written into its own field. -/
theorem executes_store :
    (before x f fields).Executes site (.store (base x) f (.slot (base x))) (after x f fields) := by
  have hvalue : (before x f fields).operand ⟨0⟩ (.slot (base x)) = .ref 1 :=
    State.root_pair (base_ne x)
  show (before x f fields).Updates _ _
    (State.setField f ((before x f fields).operand ⟨0⟩ (.slot (base x))))
  rw [hvalue]
  exact State.updates_pair (base_ne x)

theorem mem_ofRoot_self {y : Location} :
    y ∈ (graph x fields).ofRoot x ↔ y = .site (alloc 1) := by
  simp [HeapGraph.ofRoot, graph, SortedSet.mem_ofList, base_ne x]

theorem mem_ofRoot_base {y : Location} :
    y ∈ (graph x fields).ofRoot (.slot ⟨0⟩ (base x)) ↔ y = .site (alloc 2) := by
  simp [HeapGraph.ofRoot, graph, SortedSet.mem_ofList, (base_ne x).symm]

theorem mem_pointsTo_graph {n : UInt32} {g : Field} (hn : n = 1 ∨ n = 2) (hg : g ∈ fields) :
    .site (alloc 2) ∈ (graph x fields).pointsTo (.site (alloc n)) g := by
  refine HeapGraph.mem_pointsTo.2 (List.mem_flatMap.2 ⟨g, hg, ?_⟩)
  obtain rfl | rfl := hn
  · exact List.mem_cons_self
  · exact List.mem_cons_of_mem _ List.mem_cons_self

theorem covers_before : (graph x fields).Covers (before x f fields) := by
  refine HeapGraph.covers_pair (mem_ofRoot_self.2 rfl) (mem_ofRoot_base.2 rfl) ?_ ?_
  · intro g r h
    obtain ⟨rfl, hg⟩ := eq_of_link h
    exact mem_pointsTo_graph (.inl rfl) hg
  · intro g r h
    obtain ⟨rfl, hg⟩ := eq_of_cut h
    exact mem_pointsTo_graph (.inr rfl) hg

theorem covers_after (hf : f ∈ fields) : (graph x fields).Covers (after x f fields) := by
  refine HeapGraph.covers_pair (mem_ofRoot_self.2 rfl) (mem_ofRoot_base.2 rfl) ?_ ?_
  · intro g r h
    obtain ⟨rfl, hg⟩ := eq_of_link h
    exact mem_pointsTo_graph (.inl rfl) hg
  · intro g r h
    obtain ⟨rfl, rfl | hg⟩ := eq_of_tied h
    · exact mem_pointsTo_graph (.inr rfl) hf
    · exact mem_pointsTo_graph (.inr rfl) hg

/-- After the write every chain of the fields leads back to the object of the base. -/
theorem follow_after {rest : List Field} (hrest : ∀ g ∈ rest, g ∈ fields) :
    (after x f fields).follow (.ref 1) rest = some (.ref 1) := by
  induction rest with
  | nil => rfl
  | cons g rest ih =>
    have hg : tied f fields g = .ref 1 := by
      unfold tied
      by_cases hgf : g = f
      · rw [if_pos hgf]
      · rw [if_neg hgf, cut, if_neg hgf, link, if_pos (hrest g List.mem_cons_self)]
    rw [State.follow_cons]
    show (after x f fields).follow (tied f fields g) rest = _
    rw [hg]
    exact ih fun k hk => hrest k (List.mem_cons_of_mem _ hk)

/-- Before the write a chain with the written field ends there. -/
theorem follow_before {rest : List Field} {y : Value} (hrest : ∀ g ∈ rest, g ∈ fields)
    (hf : f ∈ rest) (hy : (before x f fields).follow (.ref 1) rest = some y) : y = .int 0 := by
  induction rest with
  | nil => cases hf
  | cons g rest ih =>
    rw [State.follow_cons] at hy
    change (before x f fields).follow (cut f fields g) rest = some y at hy
    by_cases hgf : g = f
    · rw [cut, if_pos hgf] at hy
      cases rest with
      | nil =>
        cases hy
        rfl
      | cons => cases hy
    · rw [cut, if_neg hgf, link, if_pos (hrest g List.mem_cons_self)] at hy
      refine ih (fun k hk => hrest k (List.mem_cons_of_mem _ hk)) ?_ hy
      exact (List.mem_cons.1 hf).resolve_left fun h => hgf h.symm

/-- As far as the facts say, `x` and the base are never the same object. -/
theorem mayAlias_graph (hx : x.isRoot = true) :
    (graph x fields).mayAlias (.known x) (.slot ⟨0⟩ (base x)) = false := by
  have hne : Pointer.known x ≠ .slot ⟨0⟩ (base x) := fun h => base_ne x (Pointer.known.inj h).symm
  unfold HeapGraph.mayAlias
  rw [decide_eq_false hne, Bool.false_or]
  refine List.any_eq_false.2 fun y hy => ?_
  have hy2 : y = .site (alloc 2) := mem_ofRoot_base.1 ((HeapGraph.mem_ofPointer_root rfl).1 hy)
  rw [decide_eq_true_eq, HeapGraph.mem_ofPointer_root hx, mem_ofRoot_self, hy2]
  decide

end

/-- The path is not null. -/
def frame (v : AccessPath) : Frame PathStore :=
  ⟨{ constraints := [⟨.var v, .ne, .const 0, ⟨0⟩⟩] }, {}⟩

section

variable {x : Location} {f g : Field} {rest : List Field}

/-- The first field of the path leads from the object of `x` to the object of the base. -/
theorem valuation_eq_follow {σ : State} (hx : x.isRoot = true) (hr : σ.root x = .ref 0)
    (hg : (σ.heap 0).map (·.field g) = some (link (g :: rest) g)) :
    σ.valuation ⟨.known x, g :: rest⟩ = σ.follow (.ref 1) rest := by
  have hlink : link (g :: rest) g = .ref 1 := if_pos List.mem_cons_self
  rw [State.valuation_of_isRoot hx, hr, State.follow_cons, hg, hlink]
  rfl

theorem satisfies_after (hx : x.isRoot = true) :
    (after x f (g :: rest)).valuation.Satisfies (frame ⟨.known x, g :: rest⟩).store := by
  intro c hc
  rw [List.mem_singleton.1 hc]
  refine ⟨.ref 1, .int 0, ?_, rfl, rfl⟩
  calc (after x f (g :: rest)).valuation ⟨.known x, g :: rest⟩
      = (after x f (g :: rest)).follow (.ref 1) rest := valuation_eq_follow hx (if_pos rfl) rfl
    _ = some (.ref 1) := follow_after fun k hk => List.mem_cons_of_mem _ hk

theorem not_satisfies_before (hx : x.isRoot = true) (hf : f ∈ rest) :
    ¬ (before x f (g :: rest)).valuation.Satisfies (frame ⟨.known x, g :: rest⟩).store := by
  intro hs
  obtain ⟨a, b, ha, hb, htruth⟩ := hs _ List.mem_cons_self
  have hfollow : (before x f (g :: rest)).follow (.ref 1) rest = some a :=
    (valuation_eq_follow hx (if_pos rfl) rfl).symm.trans ha
  rw [follow_before (fun k hk => List.mem_cons_of_mem _ hk) hf hfollow] at htruth
  cases hb
  cases htruth

/-- Nothing tells the visit that the path goes on through the base. -/
theorem ends_visit (hx : x.isRoot = true) :
    Ends (PathM.visit (graph x (g :: rest)) site (.store (base x) f (.slot (base x))))
      (frame ⟨.known x, g :: rest⟩)
      fun cases s => cases = [] ∧ s.store = (frame ⟨.known x, g :: rest⟩).store := by
  refine PathM.ends_visit_store rfl (PathM.ends_storeField_of_apart rfl fun w hw => ?_)
  rw [List.mem_singleton.1 hw]
  exact ⟨fun h => base_ne x (Pointer.known.inj h).symm, mayAlias_graph hx⟩

end

/-- A path that reads the written field after its first field can be null before the write and not
after it. -/
theorem not_storeSound {f : Field} {P : AccessPath → Prop} {v : AccessPath}
    (hroot : v.isRooted = true) (hP : P v) (hf : f ∈ v.fields.tail) : ¬ StoreSound f P := by
  intro hsound
  obtain ⟨p, fields⟩ := v
  cases p with
  | choice => cases hroot
  | known x =>
    cases fields with
    | nil => cases hf
    | cons g rest =>
      have hpaths : ∀ w ∈ (frame ⟨.known x, g :: rest⟩).store.paths, w.isRooted = true ∧ P w := by
        intro w hw
        rw [List.mem_singleton.1 hw]
        exact ⟨hroot, hP⟩
      obtain ⟨s, hvisit, hbefore⟩ := hsound (graph x (g :: rest)) site (base x) (.slot (base x))
        (before x f (g :: rest)) (after x f (g :: rest)) (frame ⟨.known x, g :: rest⟩)
        covers_before (covers_after (List.mem_cons_of_mem _ hf)) executes_store rfl hpaths
        (satisfies_after hroot)
      have hkeeps := (ends_iff_of_eq hvisit).1 (ends_visit hroot)
      rw [hkeeps.2] at hbefore
      exact not_satisfies_before hroot hf hbefore

end DeepRead

/-- Visits of writes to `f` are sound exactly for the paths that do not read `f` after their first
field. -/
theorem storeSound_iff (f : Field) (P : AccessPath → Prop) :
    StoreSound f P ↔ ∀ v : AccessPath, v.isRooted = true → P v → ¬ f ∈ v.fields.tail := by
  constructor
  · intro hsound v hroot hP hf
    exact DeepRead.not_storeSound hroot hP hf hsound
  · intro hclear h site base value σ σ' s hc _ he hf hpaths hs
    have hends := PathM.ends_storeField (h := h) (s := s) hc he ⟨hf, hs⟩ fun w hw =>
      ⟨(hpaths w hw).1, hclear w (hpaths w hw).1 (hpaths w hw).2⟩
    obtain ⟨rest, g, hvisit, rfl, hsupports⟩ := PathM.ends_visit_store hf hends
    exact ⟨g, hvisit, hsupports.all⟩

namespace AliasedWrite

def site : Site := ⟨⟨1⟩, false⟩

def f : Field := .named "A" "f"

def g : Field := .named "A" "g"

def alloc (n : UInt32) : AllocSite := ⟨n, "A", ⟨1⟩⟩

/-- Locals 1 and 2 hold objects, and `g` of the first may be the second. -/
def graph : HeapGraph where
  roots := [⟨.slot ⟨1⟩ 1, [.site (alloc 1)]⟩, ⟨.slot ⟨1⟩ 2, [.site (alloc 2)]⟩]
  edges := [⟨.site (alloc 1), g, .site (alloc 2)⟩]

/-- `g` of the first object is the second, whose `f` is `n`. -/
def state (n : Int) : State :=
  .pair (.slot ⟨1⟩ 1) (.slot ⟨1⟩ 2) (alloc 1) (alloc 2) (fun k => if k = g then .ref 1 else .int 0)
    (fun k => if k = f then .int n else .int 0)
    (by
      intro k r h
      split at h
      · cases h
        exact Nat.one_lt_two
      · cases h)
    (by
      intro k r h
      split at h <;> cases h)

/-- Local 1 read through `g` and `f` is 6. -/
def frame : Frame PathStore :=
  ⟨{ constraints := [⟨.var ⟨.slot ⟨1⟩ 1, [g, f]⟩, .eq, .const 6, ⟨0⟩⟩] }, {}⟩

theorem covers_state (n : Int) : graph.Covers (state n) := by
  refine HeapGraph.covers_pair (by decide) (by decide) ?_ ?_
  · intro k r h
    split at h
    · rename_i hk
      cases h
      rw [hk]
      decide
    · cases h
  · intro k r h
    split at h <;> cases h

theorem executes_store (n : Int) :
    (state n).Executes site (.store 2 f (.const 6)) (state 6) := by
  refine ⟨1, .ofFields (alloc 2) fun k => if k = f then .int n else .int 0, rfl, rfl, rfl, ?_⟩
  intro q
  match q with
  | 0 | _ + 2 => rfl
  | 1 =>
    show some (Object.mk _ _ _) = some (Object.mk _ _ _)
    congr 2
    funext k
    by_cases hk : k = f
    · rw [if_pos hk, if_pos hk]
      rfl
    · show (if k = f then _ else _) = if k = f then _ else if k = f then _ else _
      rw [if_neg hk, if_neg hk, if_neg hk]

theorem satisfies_iff (n : Int) : (state n).valuation.Satisfies frame.store ↔ n = 6 := by
  have hpath : (state n).valuation ⟨.slot ⟨1⟩ 1, [g, f]⟩ = some (.int n) := rfl
  constructor
  · intro hs
    obtain ⟨a, b, ha, hb, htruth⟩ := hs _ List.mem_cons_self
    cases hpath.symm.trans ha
    cases hb
    simpa [CmpOp.truth] using htruth
  · rintro rfl c hc
    rw [List.mem_singleton.1 hc]
    exact ⟨.int 6, .int 6, hpath, rfl, rfl⟩

/-- `f` of local 2 is set to 6 and so is what local 1 reads through `g` and `f`. The visit keeps the
constraint, which the state before does not satisfy. -/
theorem visit_keeps_aliased_read :
    graph.Covers (state 0) ∧ graph.Covers (state 6) ∧
      (state 0).Executes site (.store 2 f (.const 6)) (state 6) ∧
      (state 6).valuation.Satisfies frame.store ∧
      ∃ s, PathM.visit graph site (.store 2 f (.const 6)) frame = .ok [] s ∧
        ¬ (state 0).valuation.Satisfies s.store := by
  refine ⟨covers_state 0, covers_state 6, executes_store 0, (satisfies_iff 6).2 rfl, ?_⟩
  have hends : Ends (PathM.visit graph site (.store 2 f (.const 6))) frame fun rest s =>
      rest = [] ∧ s.store = frame.store := by
    refine PathM.ends_visit_store rfl (PathM.ends_storeField_of_apart rfl fun w hw => ?_)
    rw [List.mem_singleton.1 hw]
    decide
  obtain ⟨rest, s, hvisit, rfl, hstore⟩ := hends
  refine ⟨s, hvisit, ?_⟩
  rw [hstore, satisfies_iff]
  decide

end AliasedWrite

end Refuter
