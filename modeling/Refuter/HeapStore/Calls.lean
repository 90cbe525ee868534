import Refuter.HeapStore.Visit

/-!
Calls in the heap store: entering a callee from behind, leaving it through its entry, and
stepping over it.
-/

namespace Refuter

namespace HeapM

open StoreM

/-- What the call result owes is owed by the callee's return slot. -/
def enterCallee (call : Instruction) (caller : Site) (callee : MethodId) : HeapM Unit := do
  requireFeasible
  let (target, _, _) ← callOf .enterCallee call
  if let some d := target then
    modifyStore (HeapStore.replace (.slot caller.method d) (.result callee))

/-- Takes edges off a formal and returns them for its actual, which must be a local. -/
def takeEdges (formal : Pointer) (actual : Option Pointer) : List Edge → HeapM (List Edge)
  | [] => pure []
  | e :: rest => do
    discharge e
    match actual with
    | none => refute (.nullBinding e)
    | some p => return e.rename formal p :: (← takeEdges formal actual rest)

/-- Takes the edges off all formals. -/
def takeFormals (caller : Site) (callee : MethodId) : List (Local × Operand) → HeapM (List Edge)
  | [] => pure []
  | (formal, actual) :: rest => do
    let formal := Pointer.slot callee formal
    let actual := actual.local?.map (Pointer.slot caller.method)
    let taken ← takeEdges formal actual (edgesOf (← store) formal)
    return taken ++ (← takeFormals caller callee rest)

/-- Adds edges in turn. -/
def addAll : List Edge → HeapM Unit
  | [] => pure ()
  | e :: rest => do
    let _ ← addEdge e
    addAll rest

/-- The edge has an end in the frame of `m`. -/
def touchesFrame (m : MethodId) (e : Edge) : Bool :=
  e.source.method? = some m || e.sink.method? = some m

/-- Leaves the callee through its entry: formals become actuals, and nothing else of the callee's
frame may still be owed. -/
def returnToCaller (call : Instruction) (caller : Site) : HeapM Unit := do
  requireFeasible
  let (_, callee, args) ← callOf .returnToCaller call
  -- formals that share an actual are merged only once all of them are taken
  addAll (← takeFormals caller callee.id (callee.params.zip args))
  if caller.method = callee.id then return
  match (← store).owed.toList.find? (·.source.method? = some callee.id) with
  | some e => refute (.unproducible e)
  | none =>
    modifyStore fun s =>
      { s with produced := s.produced.filter fun e => !touchesFrame callee.id e }

/-- The callee may have produced the edge. -/
def mayBeProduced (target : Option Pointer) (modifies : List Field) (e : Edge) : Bool :=
  some e.source = target || e.field.any (· ∈ modifies) || e.source.global?.any (· ∈ modifies)

/-- Reports the edges that are given up. -/
def reportGivenUp : List Edge → HeapM Unit
  | [] => pure ()
  | e :: rest => do
    debug .heap ("giving up " ++ e.text)
    reportGivenUp rest

/-- The callee is not explored: what it may have produced is given up. -/
def skipCall (call : Instruction) (caller : Site) : HeapM Unit := do
  requireFeasible
  let (target, callee, _) ← callOf .skipCall call
  let lost := mayBeProduced (target.map (Pointer.slot caller.method)) callee.modifies
  reportGivenUp ((← store).owed.toList.filter lost)
  modifyStore fun s => { s with owed := s.owed.filter (!lost ·) }

end HeapM

end Refuter
