import Refuter.Heap.Graph
import Refuter.Program.Instruction

/-!
# Concrete states

A state gives every root a value and every live reference an object. Objects know the site that
created them, so points-to facts can be compared with states: `HeapGraph.Covers` says that the facts
allow for all that a state holds. `State.Executes` is the effect of one instruction.
-/

namespace Refuter

/-- Identity of an object. -/
abbrev Ref := Nat

/-- What a root or a field holds; null is the integer zero. -/
inductive Value where
  | int (n : Int)
  | ref (r : Ref)
  deriving DecidableEq

/-- An object or an array. -/
structure Object where
  site : AllocSite
  field : Field → Value
  /-- elements of an array by index -/
  element : Int → Value

/-- The field holds `v`. The contents of an array also hold each of its elements. -/
def Object.Holds (b : Object) (f : Field) (v : Value) : Prop :=
  b.field f = v ∨ f = .contents ∧ ∃ n, b.element n = v

/-- Locals, return slots and static fields. -/
def Location.isRoot : Location → Bool
  | slot .. | result _ | global _ => true
  | site _ | index _ => false

/-- Values of the roots and the live objects. No reference dangles. -/
structure State where
  root : Location → Value
  heap : Ref → Option Object
  root_live : ∀ x r, root x = .ref r → (heap r).isSome
  field_live : ∀ r b f q, heap r = some b → b.Holds f (.ref q) → (heap q).isSome

/-! ## 1. Roots of an instruction -/

/-- The local that an operand reads. -/
def Operand.roots (m : MethodId) (v : Operand) : List Location :=
  (v.local?.map (Location.slot m)).toList

namespace Instruction

/-- The root that the instruction writes. -/
def written? (m : MethodId) : Instruction → Option Location
  | staticStore f _ => some (.global f)
  | ret _ => some (.result m)
  | i => i.target?.map (.slot m)

/-- The roots that the instruction reads. -/
def read (m : MethodId) : Instruction → List Location
  | assign _ v | checkCast _ v | newArray _ _ v | staticStore _ v | unary _ _ v _
  | conversion _ v _ _ | instanceOf _ v | switch v _ _ => v.roots m
  | load _ base _ | arrayLength _ base => [.slot m base]
  | staticLoad _ f => [.global f]
  | arrayLoad _ array index => .slot m array :: index.roots m
  | store base _ v => .slot m base :: v.roots m
  | arrayStore array index v => .slot m array :: index.roots m ++ v.roots m
  | binary _ _ l r _ | compare _ l r _ | branch _ l r _ => l.roots m ++ r.roots m
  | ret v => v.elim [] (Operand.roots m)
  | invoke _ _ args => args.flatMap (Operand.roots m)
  | new .. | metadata _ | nop => []

/-- The instruction writes a field or an element of an object. -/
def writesHeap : Instruction → Bool
  | store .. | arrayStore .. => true
  | _ => false

end Instruction

namespace State

/-! ## 2. What a state holds -/

/-- The reference is to an object of the site `y`. -/
def At (σ : State) (r : Ref) (y : Location) : Prop := ∃ b, σ.heap r = some b ∧ y = .site b.site

/-- The root `x` holds an object of the site `y`. -/
def Points (σ : State) (x y : Location) : Prop := ∃ r, σ.root x = .ref r ∧ σ.At r y

/-- Some object of the site `x` holds an object of the site `y` in its field `f`. -/
def PointsBy (σ : State) (x : Location) (f : Field) (y : Location) : Prop :=
  ∃ r b q, σ.heap r = some b ∧ x = .site b.site ∧ b.Holds f (.ref q) ∧ σ.At q y

theorem At.unique {σ : State} {r : Ref} {y z : Location} (hy : σ.At r y) (hz : σ.At r z) :
    y = z := by
  obtain ⟨b, hb, rfl⟩ := hy
  obtain ⟨c, hc, rfl⟩ := hz
  rw [hb] at hc
  cases hc
  rfl

/-- A root holds at most one object. -/
theorem Points.unique {σ : State} {x y z : Location} (hy : σ.Points x y) (hz : σ.Points x z) :
    y = z := by
  obtain ⟨r, hr, hy⟩ := hy
  obtain ⟨q, hq, hz⟩ := hz
  rw [hr] at hq
  cases hq
  exact hy.unique hz

/-- A root that holds a reference holds an object of some site. -/
theorem exists_points {σ : State} {x : Location} {r : Ref} (h : σ.root x = .ref r) :
    ∃ y, σ.Points x y := by
  obtain ⟨b, hb⟩ := Option.isSome_iff_exists.1 (σ.root_live x r h)
  exact ⟨.site b.site, r, h, b, hb, rfl⟩

/-! ## 3. Steps -/

/-- Value of an operand in the frame of `m`. -/
def operand (σ : State) (m : MethodId) : Operand → Value
  | .slot l => σ.root (.slot m l)
  | .const v => .int v.toInt
  | .null => .int 0

/-- The root `x` takes the value `v`, and nothing else changes. -/
def Assigns (σ σ' : State) (x : Location) (v : Value) : Prop :=
  σ'.heap = σ.heap ∧ ∀ y, σ'.root y = if y = x then v else σ.root y

/-- The root `x` takes a new object of the site `s` whose fields hold no object. -/
def Allocates (σ σ' : State) (x : Location) (s : AllocSite) : Prop :=
  ∃ r b, σ.heap r = none ∧ b.site = s ∧ (∀ f q, ¬ b.Holds f (.ref q)) ∧
    (∀ q, σ'.heap q = if q = r then some b else σ.heap q) ∧
    ∀ y, σ'.root y = if y = x then .ref r else σ.root y

/-- The object that the root `x` holds becomes what `change` makes of it. -/
def Updates (σ σ' : State) (x : Location) (change : Object → Object) : Prop :=
  ∃ r b, σ.root x = .ref r ∧ σ.heap r = some b ∧ σ'.root = σ.root ∧
    ∀ q, σ'.heap q = if q = r then some (change b) else σ.heap q

/-- Writes one field of an object. -/
def setField (f : Field) (v : Value) (b : Object) : Object :=
  { b with field := fun g => if g = f then v else b.field g }

/-- Writes one element of an array. -/
def setElement (n : Int) (v : Value) (b : Object) : Object :=
  { b with element := fun k => if k = n then v else b.element k }

/-- The instruction takes the first state to the second. A read or write through null has no
successor, arithmetic gives some integer and metadata some value. A method that returns nothing
leaves no object in its return slot. Calls are not one step. -/
def Executes (site : Site) (i : Instruction) (σ σ' : State) : Prop :=
  let slot := Location.slot site.method
  match i with
  | .assign d v | .checkCast d v => σ.Assigns σ' (slot d) (σ.operand site.method v)
  | .new d s | .newArray d s _ => σ.Allocates σ' (slot d) s
  | .load d base f =>
    ∃ r b, σ.root (slot base) = .ref r ∧ σ.heap r = some b ∧ σ.Assigns σ' (slot d) (b.field f)
  | .arrayLoad d array index =>
    ∃ r b n, σ.root (slot array) = .ref r ∧ σ.heap r = some b ∧
      σ.operand site.method index = .int n ∧ σ.Assigns σ' (slot d) (b.element n)
  | .staticLoad d f => σ.Assigns σ' (slot d) (σ.root (.global f))
  | .staticStore f v => σ.Assigns σ' (.global f) (σ.operand site.method v)
  | .store base f v => σ.Updates σ' (slot base) (setField f (σ.operand site.method v))
  | .arrayStore array index v =>
    ∃ n, σ.operand site.method index = .int n ∧
      σ.Updates σ' (slot array) (setElement n (σ.operand site.method v))
  | .arrayLength d _ | .binary d _ _ _ _ | .unary d _ _ _ | .compare d _ _ _
  | .conversion d _ _ _ | .instanceOf d _ => ∃ n, σ.Assigns σ' (slot d) (.int n)
  | .metadata d => ∃ v, σ.Assigns σ' (slot d) v
  | .branch .. | .switch .. | .nop => σ' = σ
  | .ret (some v) => σ.Assigns σ' (.result site.method) (σ.operand site.method v)
  | .ret none => ∃ n, σ.Assigns σ' (.result site.method) (.int n)
  | .invoke .. => False

/-- Value and site of the root that was assigned. -/
theorem Assigns.points_self {σ σ' : State} {x y : Location} {v : Value} (h : σ.Assigns σ' x v)
    (hy : σ'.Points x y) : ∃ r, v = .ref r ∧ σ.At r y := by
  obtain ⟨r, hr, hy⟩ := hy
  rw [h.2 x, if_pos rfl] at hr
  unfold At at hy
  rw [h.1] at hy
  exact ⟨r, hr, hy⟩

theorem Assigns.int_not_points {σ σ' : State} {x y : Location} {n : Int}
    (h : σ.Assigns σ' x (.int n)) : ¬ σ'.Points x y := by
  intro hy
  obtain ⟨r, hr, -⟩ := h.points_self hy
  cases hr

/-- A root that was assigned the value of another root points where that one did. -/
theorem Assigns.points_of_root {σ σ' : State} {x y z : Location} (h : σ.Assigns σ' x (σ.root z))
    (hy : σ'.Points x y) : σ.Points z y := by
  obtain ⟨r, hr, hy⟩ := h.points_self hy
  exact ⟨r, hr, hy⟩

/-- The new object is of the site that created it. -/
theorem Allocates.points_self {σ σ' : State} {x y : Location} {s : AllocSite}
    (h : σ.Allocates σ' x s) (hy : σ'.Points x y) : y = .site s := by
  obtain ⟨r, b, -, rfl, -, hheap, hroot⟩ := h
  obtain ⟨q, hq, c, hc, rfl⟩ := hy
  rw [hroot x, if_pos rfl] at hq
  cases hq
  rw [hheap r, if_pos rfl] at hc
  cases hc
  rfl

/-- The state after a live value was assigned. -/
def assign (σ : State) (x : Location) (v : Value) (hv : ∀ r, v = .ref r → (σ.heap r).isSome) :
    State where
  root y := if y = x then v else σ.root y
  heap := σ.heap
  root_live y r h := by
    split at h
    · exact hv r h
    · exact σ.root_live y r h
  field_live := σ.field_live

theorem assigns_assign {σ : State} {x : Location} {v : Value}
    {hv : ∀ r, v = .ref r → (σ.heap r).isSome} : σ.Assigns (σ.assign x v hv) x v :=
  ⟨rfl, fun _ => rfl⟩

/-! ## 4. What instructions leave alone -/

/-- `σ'` holds no points-to fact that `σ` does not, except on the root `x`. -/
structure AgreesOff (σ σ' : State) (x : Option Location) : Prop where
  points : ∀ y z, x ≠ some y → σ'.Points y z → σ.Points y z
  pointsBy : ∀ y f z, σ'.PointsBy y f z → σ.PointsBy y f z

theorem Assigns.agreesOff {σ σ' : State} {x : Location} {v : Value} (h : σ.Assigns σ' x v) :
    σ.AgreesOff σ' (some x) := by
  constructor
  · intro y z hy hz
    have hne : y ≠ x := fun hyx => hy (congrArg some hyx.symm)
    unfold Points At at hz ⊢
    rw [h.1, h.2 y, if_neg hne] at hz
    exact hz
  · intro y f z hz
    unfold PointsBy At at hz ⊢
    rw [h.1] at hz
    exact hz

/-- Nothing that was live before refers to a new object. -/
theorem Allocates.agreesOff {σ σ' : State} {x : Location} {s : AllocSite}
    (h : σ.Allocates σ' x s) : σ.AgreesOff σ' (some x) := by
  obtain ⟨r, b, hfree, -, hempty, hheap, hroot⟩ := h
  have hat : ∀ q z, q ≠ r → σ'.At q z → σ.At q z := by
    intro q z hq hz
    unfold At at hz ⊢
    rw [hheap q, if_neg hq] at hz
    exact hz
  have hdead : ∀ q, (σ.heap q).isSome → q ≠ r := by
    rintro q hq rfl
    rw [hfree] at hq
    cases hq
  constructor
  · rintro y z hy ⟨q, hq, hz⟩
    rw [hroot y, if_neg fun hyx => hy (congrArg some hyx.symm)] at hq
    exact ⟨q, hq, hat q z (hdead q (σ.root_live y q hq)) hz⟩
  · rintro y f z ⟨p, c, q, hp, rfl, hf, hz⟩
    rw [hheap p] at hp
    split at hp
    · -- the new object itself holds none
      cases hp
      exact absurd hf (hempty f q)
    · exact ⟨p, c, q, hp, rfl, hf, hat q z (hdead q (σ.field_live p c f q hp hf)) hz⟩

/-- An instruction that writes no object only adds points-to facts on the root it writes. -/
theorem Executes.agreesOff {σ σ' : State} {site : Site} {i : Instruction}
    (h : σ.Executes site i σ') (hi : i.writesHeap = false) :
    σ.AgreesOff σ' (i.written? site.method) := by
  cases i with
  | assign | checkCast | staticLoad | staticStore => exact Assigns.agreesOff h
  | new | newArray => exact Allocates.agreesOff h
  | load =>
    obtain ⟨_, _, _, _, h⟩ := h
    exact h.agreesOff
  | arrayLoad =>
    obtain ⟨_, _, _, _, _, _, h⟩ := h
    exact h.agreesOff
  | arrayLength | binary | unary | compare | conversion | instanceOf | metadata =>
    obtain ⟨_, h⟩ := h
    exact h.agreesOff
  | ret v =>
    cases v with
    | some => exact Assigns.agreesOff h
    | none =>
      obtain ⟨_, h⟩ := h
      exact h.agreesOff
  | branch | switch | nop =>
    cases h
    exact ⟨fun _ _ _ hz => hz, fun _ _ _ hz => hz⟩
  | store | arrayStore => cases hi
  | invoke => exact h.elim

end State

/-! ## 5. States of two objects -/

/-- An object without elements. -/
def Object.ofFields (s : AllocSite) (field : Field → Value) : Object := ⟨s, field, fun _ => .int 0⟩

theorem Object.holds_ofFields {s : AllocSite} {field : Field → Value} {f : Field} {r : Ref} :
    (Object.ofFields s field).Holds f (.ref r) ↔ field f = .ref r := by
  simp [Object.Holds, Object.ofFields]

/-- The root `x` holds the object 0 of the site `a`, the root `y` the object 1 of the site `b`, and
the other roots hold null. -/
def State.pair (x y : Location) (a b : AllocSite) (first second : Field → Value)
    (hfirst : ∀ f r, first f = .ref r → r < 2) (hsecond : ∀ f r, second f = .ref r → r < 2) :
    State where
  root z := if z = x then .ref 0 else if z = y then .ref 1 else .int 0
  heap r := if r = 0 then some (.ofFields a first) else if r = 1 then some (.ofFields b second)
    else none
  root_live z r h := by
    split at h
    · cases h
      rfl
    · split at h
      · cases h
        rfl
      · cases h
  field_live r c f q h hq := by
    have hlt : q < 2 := by
      split at h
      · cases h
        exact hfirst f q (Object.holds_ofFields.1 hq)
      · split at h
        · cases h
          exact hsecond f q (Object.holds_ofFields.1 hq)
        · cases h
    match q, hlt with
    | 0, _ | 1, _ => rfl

theorem State.root_pair {x y : Location} {a b : AllocSite} {first second : Field → Value}
    {hf : ∀ f r, first f = .ref r → r < 2} {hs : ∀ f r, second f = .ref r → r < 2} (hxy : y ≠ x) :
    (State.pair x y a b first second hf hs).root y = .ref 1 := by
  show (if y = x then _ else if y = y then _ else _) = _
  rw [if_neg hxy, if_pos rfl]

/-- Writing a field of the second object changes nothing else. -/
theorem State.updates_pair {x y : Location} {a b : AllocSite} {first second : Field → Value}
    {hf : ∀ f r, first f = .ref r → r < 2} {hs : ∀ f r, second f = .ref r → r < 2} {f : Field}
    {v : Value} {hs' : ∀ g r, (if g = f then v else second g) = .ref r → r < 2} (hxy : y ≠ x) :
    (State.pair x y a b first second hf hs).Updates
      (State.pair x y a b first (fun g => if g = f then v else second g) hf hs') y
      (State.setField f v) := by
  refine ⟨1, .ofFields b second, State.root_pair hxy, rfl, rfl, fun q => ?_⟩
  match q with
  | 0 | 1 | _ + 2 => rfl

/-! ## 6. Points-to facts of a state -/

namespace HeapGraph

/-- The facts allow for everything that roots and fields hold in the state. -/
structure Covers (h : HeapGraph) (σ : State) : Prop where
  roots : ∀ x y, x.isRoot = true → σ.Points x y → y ∈ h.ofRoot x
  fields : ∀ x f y, σ.PointsBy x f y → y ∈ h.pointsTo x f

theorem mem_pointsTo {h : HeapGraph} {x y : Location} {f : Field} :
    y ∈ h.pointsTo x f ↔ ⟨x, f, y⟩ ∈ h.edges := by
  unfold pointsTo
  rw [SortedSet.mem_ofList, List.mem_map]
  constructor
  · rintro ⟨e, he, rfl⟩
    obtain ⟨hmem, hxf⟩ := List.mem_filter.1 he
    simp only [Bool.and_eq_true, decide_eq_true_eq] at hxf
    obtain ⟨rfl, rfl⟩ := hxf
    exact hmem
  · intro he
    exact ⟨_, List.mem_filter.2 ⟨he, by simp⟩, rfl⟩

theorem mem_pointsAt {h : HeapGraph} {x y : Location} {f : Field} :
    x ∈ h.pointsAt y f ↔ y ∈ h.pointsTo x f := by
  rw [mem_pointsTo]
  unfold pointsAt
  rw [SortedSet.mem_ofList, List.mem_map]
  constructor
  · rintro ⟨e, he, rfl⟩
    obtain ⟨hmem, hyf⟩ := List.mem_filter.1 he
    simp only [Bool.and_eq_true, decide_eq_true_eq] at hyf
    obtain ⟨rfl, rfl⟩ := hyf
    exact hmem
  · intro he
    exact ⟨_, List.mem_filter.2 ⟨he, by simp⟩, rfl⟩

theorem mem_ofPointer {h : HeapGraph} {p : Pointer} {y : Location} :
    y ∈ h.ofPointer p ↔ ∃ x ∈ p.candidates, y ∈ h.ofLocation x :=
  SortedSet.mem_bind

theorem mem_ofPointer_root {h : HeapGraph} {x y : Location} (hx : x.isRoot = true) :
    y ∈ h.ofPointer (.known x) ↔ y ∈ h.ofRoot x := by
  rw [mem_ofPointer]
  have hof : h.ofLocation x = h.ofRoot x := by
    cases x with
    | slot | result | global => rfl
    | site | index => cases hx
  rw [← hof]
  simp [Pointer.candidates]

/-- Facts that cover a state of two objects. -/
theorem covers_pair {h : HeapGraph} {x y : Location} {a b : AllocSite}
    {first second : Field → Value} {hf : ∀ f r, first f = .ref r → r < 2}
    {hs : ∀ f r, second f = .ref r → r < 2} (hx : .site a ∈ h.ofRoot x)
    (hy : .site b ∈ h.ofRoot y)
    (hfirst : ∀ f r, first f = .ref r → .site (if r = 0 then a else b) ∈ h.pointsTo (.site a) f)
    (hsecond : ∀ f r, second f = .ref r → .site (if r = 0 then a else b) ∈ h.pointsTo (.site b) f) :
    h.Covers (State.pair x y a b first second hf hs) := by
  have hat : ∀ r z, (State.pair x y a b first second hf hs).At r z →
      z = .site (if r = 0 then a else b) := by
    rintro r z ⟨c, hc, rfl⟩
    unfold State.pair at hc
    dsimp only at hc
    split at hc
    · cases hc
      rw [if_pos (by assumption)]
      rfl
    · split at hc
      · cases hc
        rw [if_neg (by assumption)]
        rfl
      · cases hc
  constructor
  · rintro z w - ⟨r, hr, hw⟩
    rw [hat r w hw]
    unfold State.pair at hr
    dsimp only at hr
    split at hr
    · cases hr
      subst_vars
      exact hx
    · split at hr
      · cases hr
        subst_vars
        exact hy
      · cases hr
  · rintro z f w ⟨r, c, q, hc, rfl, hq, hw⟩
    rw [hat q w hw]
    unfold State.pair at hc
    dsimp only at hc
    split at hc
    · cases hc
      exact hfirst f q (Object.holds_ofFields.1 hq)
    · split at hc
      · cases hc
        exact hsecond f q (Object.holds_ofFields.1 hq)
      · cases hc

end HeapGraph

end Refuter
