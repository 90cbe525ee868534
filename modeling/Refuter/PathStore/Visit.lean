import Refuter.PathStore.Substitution

/-!
Effect of one instruction on the path store, going backwards.

An instruction that defines a location has its value put for that location. A value without a
model forgets the constraints on the location. Switches and array stores split the store into
cases: the store itself becomes the first case and the others are returned.
-/

namespace Refuter

/-- The value an operand stands for at a site. -/
def Operand.term (site : Site) : Operand → Term
  | slot l => .bare (.slot site.method l)
  | const v => .const v
  | null => .const 0

/-- Value of a three way comparison. -/
def threeWay (a b : Int64) : Int64 :=
  if a.toInt < b.toInt then -1 else if a.toInt = b.toInt then 0 else 1

namespace PathM

open StoreM

/-- Runs an operation if the constraints read `p`. -/
def whenRelevant (p : Pointer) (x : PathM Bool) : PathM Unit := do
  if (← store).isRelevant p then
    let _ ← x

/-- `target` now holds `value`, folded if possible; without a value nothing is known of it. -/
def define (target : Pointer) (value : Option Term) : PathM Unit :=
  whenRelevant target <|
    match value with
    | some t => substitute (t.evaluate.elim t .const) ⟨target, []⟩
    | none => dropMentioning target

/-- One case for each value of a switch. -/
def split (scrutinee : Term) (values : List Int64) : PathM (List PathStore) := do
  let s ← store
  commit refute (← attemptAll (values.map fun v => (require scrutinee .eq (.const v), s)) {})

/-- The scrutinee is none of the values. -/
def exclude (scrutinee : Term) : List Int64 → PathM Unit
  | [] => pure ()
  | v :: rest => do
    require scrutinee .ne (.const v)
    exclude scrutinee rest

/-- `target` is a new object: its fields have default values. -/
def allocate (target object : Pointer) (length : Option Term) : PathM Unit := do
  if !(← store).isRelevant target then return
  if let some length := length then
    let _ ← spliceRead length target .length
  spliceReads (.const 0) target ((← store).fieldsReadThrough target).toList
  let _ ← substitute (.bare object) ⟨target, []⟩

/-- Writes a field. Reads through another pointer that may be the same object are forgotten. -/
def storeField (h : HeapGraph) (base : Pointer) (field : Field) (value : Term) : PathM Unit := do
  if !(← store).readsField field then return
  let _ ← spliceRead value base field
  let _ ← dropWhere fun c => c.paths.any fun v =>
    v.base ≠ base && v.first? = some field && h.mayAlias v.base base

/-- Reads an array element under a new index name. -/
def loadElement (target array : Pointer) (index : Term) : PathM Unit := do
  if !(← store).isRelevant target then return
  if !(← options).indexSensitivity then
    let _ ← dropMentioning target
    return
  let n := UInt64.ofNat (← fresh Fresh.next)
  let _ ← splice (.read array (.element n)) ⟨target, []⟩
  require (.bare (.known (.index n))) .eq index

/-- The path reads an element of an array. -/
def readsElement (v : AccessPath) : Bool := v.first?.any Field.isElement

/-- Splits every case on whether the element read as `n` is the one written. -/
def splitElements (array : Pointer) (index value : Term) :
    List UInt64 → Survivors PathStore → PathM (Survivors PathStore)
  | [], cases => pure cases
  | n :: rest, cases => do
    let name := Term.bare (.known (.index n))
    let same : PathM Unit := do
      let _ ← spliceRead value array (.element n)
      require name .eq index
    let other : PathM Unit := require name .ne index
    let next ← attemptAll (cases.live.flatMap fun s => [(same, s), (other, s)])
      { firstRefutation := cases.firstRefutation }
    splitElements array index value rest next

/-- Writes an array element. Each element read through the array either is the one written or is
not; reads through another pointer that may be the same array are forgotten. -/
def storeElement (h : HeapGraph) (array : Pointer) (index value : Term) :
    PathM (List PathStore) := do
  let sensitive := (← options).indexSensitivity
  let _ ← dropWhere fun c => c.paths.any fun v =>
    (!sensitive || v.base ≠ array) && readsElement v && h.mayAlias v.base array
  if !sensitive then return []
  let names := ((← store).fieldsReadThrough array).toList.filterMap Field.index?
  if names.isEmpty then return []
  commit refute (← splitElements array index value names { live := [← store] })

/-- The instruction was executed before the store; returns the further cases. -/
def visit (h : HeapGraph) (site : Site) (i : Instruction) : PathM (List PathStore) := do
  requireFeasible
  let slot := Pointer.slot site.method
  match i with
  | .assign d value | .checkCast d value =>
    whenRelevant (slot d) (substitute (value.term site) ⟨slot d, []⟩)
  | .new d s => allocate (slot d) (.site s) none
  | .newArray d s length => allocate (slot d) (.site s) (some (length.term site))
  | .load d base field => whenRelevant (slot d) (splice (.read (slot base) field) ⟨slot d, []⟩)
  | .staticLoad d field => whenRelevant (slot d) (splice (.bare (.global field)) ⟨slot d, []⟩)
  | .store base field value => storeField h (slot base) field (value.term site)
  | .staticStore field value =>
    whenRelevant (.global field) (substitute (value.term site) ⟨.global field, []⟩)
  | .arrayLoad d array index => loadElement (slot d) (slot array) (index.term site)
  | .arrayStore array index value =>
    return ← storeElement h (slot array) (index.term site) (value.term site)
  | .arrayLength d array =>
    whenRelevant (slot d) (splice (.read (slot array) .length) ⟨slot d, []⟩)
  | .binary d op lhs rhs type =>
    define (slot d) <|
      match ArithOp.ofBinary? op, type with
      | some op, .int => some (.bin (lhs.term site) op (rhs.term site))
      | _, _ => none
  | .unary d .neg value type =>
    define (slot d) <|
      match type with
      | .int => some (.bin (.const 0) .sub (value.term site))
      | _ => none
  | .compare d lhs rhs type =>
    let signOnly := (← store).onlySignTests (slot d)
    define (slot d) <|
      match lhs.const?, rhs.const? with
      | some a, some b => some (.const (threeWay a b))
      | _, _ =>
        if type.isIntegral && signOnly then some (.bin (lhs.term site) .diff (rhs.term site))
        else none
  | .conversion d value source dest =>
    define (slot d) <|
      match source, dest with
      | .int, .int | .int, .long | .long, .long => some (value.term site)
      | _, _ => none
  | .instanceOf d _ | .metadata d => define (slot d) none
  | .branch op lhs rhs taken =>
    require (lhs.term site) (if taken then op else op.negate) (rhs.term site)
  | .switch scrutinee cases .default => exclude (scrutinee.term site) cases
  | .switch _ _ (.cases []) => pure ()
  | .switch scrutinee _ (.cases values) => return ← split (scrutinee.term site) values
  | .ret (some value) =>
    whenRelevant (.result site.method) (substitute (value.term site) ⟨.result site.method, []⟩)
  | .ret none | .invoke .. | .nop => pure ()
  return []

end PathM

end Refuter
