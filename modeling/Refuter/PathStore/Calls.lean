import Refuter.PathStore.Visit

/-!
Calls in the path store: entering a callee from behind, leaving it through its entry, and
stepping over it.
-/

namespace Refuter

namespace PathM

open StoreM

/-- The result of the call is what the callee returns. -/
def enterCallee (call : Instruction) (caller : Site) (callee : MethodId) : PathM Unit := do
  let (target, _, _) ← callOf .enterCallee call
  if let some d := target then
    let d := Pointer.slot caller.method d
    whenRelevant d (substitute (.bare (.result callee)) ⟨d, []⟩)

/-- Each root in turn holds zero. -/
def zeroRoots : List Pointer → PathM Unit
  | [] => pure ()
  | p :: rest => do
    let _ ← substitute (.const 0) ⟨p, []⟩
    zeroRoots rest

/-- Each formal in turn is replaced by its actual. -/
def bindFormals (caller : Site) (callee : MethodId) : List (Local × Operand) → PathM Unit
  | [] => pure ()
  | (formal, actual) :: rest => do
    let _ ← substitute (actual.term caller) ⟨.slot callee formal, []⟩
    bindFormals caller callee rest

/-- Fields and statics that are new when the callee starts have default values. -/
def initialValues (callee : Method) : PathM Unit := do
  match callee.kind, callee.params with
  | .constructor, receiver :: _ =>
    let receiver := Pointer.slot callee.id receiver
    spliceReads (.const 0) receiver ((← store).fieldsReadThrough receiver).toList
  | .classInit, _ =>
    zeroRoots ((← store).pointers.toList.filter fun p =>
      (p.global?.bind Field.declaringClass?) = some callee.className)
  | _, _ => pure ()

/-- Leaves the callee through its entry: formals become actuals, and what else is known of the
callee's frame is forgotten. -/
def returnToCaller (call : Instruction) (caller : Site) : PathM Unit := do
  let (_, callee, args) ← callOf .returnToCaller call
  initialValues callee
  bindFormals caller callee.id (callee.params.zip args)
  if caller.method ≠ callee.id then
    let _ ← dropWhere fun c => c.paths.any fun v => v.base.method? = some callee.id

/-- The path reads something that a method with these effects may write. -/
def mayBeWritten (modifies : List Field) (v : AccessPath) : Bool :=
  v.fields.any (· ∈ modifies) || v.base.global?.any (· ∈ modifies)

/-- The callee is not explored: its result and all that it may write are unknown. -/
def skipCall (call : Instruction) (caller : Site) : PathM Unit := do
  let (target, callee, _) ← callOf .skipCall call
  if let some d := target then
    let _ ← dropMentioning (.slot caller.method d)
  let _ ← dropWhere fun c => c.paths.any (mayBeWritten callee.modifies)

/-- The terms are a read of one field of a frame location and allocated objects. -/
def fieldAndSites? : Term → Term → Option (Pointer × Field × Pointer)
  | .var ⟨base, [f]⟩, .var v =>
    if v.isSite && base.isFrame && !f.isPseudo then some (base, f, v.base) else none
  | _, _ => none

/-- A constraint that equates a read of one field of a frame location with allocated objects. -/
def siteEquality? (c : Constraint) : Option (Pointer × Field × Pointer) :=
  if c.op = .eq then (fieldAndSites? c.lhs c.rhs).or (fieldAndSites? c.rhs c.lhs) else none

/-- Removes and returns the equations between a field read and allocated objects. -/
def takeSiteEqualities : PathM (List (Pointer × Field × Pointer)) := do
  let cs := (← store).constraints
  let taken := cs.filter (siteEquality? · |>.isSome)
  debugAll (taken.map fun c => "promoting " ++ c.text ++ " to the heap store")
  if !taken.isEmpty then setConstraints (cs.filter (siteEquality? · |>.isNone))
  return cs.filterMap siteEquality?

end PathM

end Refuter
