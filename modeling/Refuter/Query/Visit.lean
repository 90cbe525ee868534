import Refuter.Query.Basic

/-!
Steps of a query.

Both stores see every instruction. Each case of the heap store is paired with each case of the
path store, and every pair is settled: the renames of the heap store are replayed, and equations
between a field and allocated objects move from the path store to the heap store.
-/

namespace Refuter

/-- Where the rules of an instruction come from. -/
inductive RuleSource where
  /-- from the points-to facts -/
  | derived
  | fixed (rules : List Rule)

def RuleSource.rules (source : RuleSource) (h : HeapGraph) (site : Site) (i : Instruction) :
    Fresh (List Rule) :=
  match source with
  | derived => Rule.derive h site i
  | fixed rules => pure rules

namespace QueryM

open StoreM

/-! ## Settling -/

/-- The equation `base.field = objects` becomes edges from `base` to some object and from that
object's field. -/
def promote (h : HeapGraph) : Pointer × Field × Pointer → QueryM Unit
  | (base, field, objects) => do
    let some b ← fresh (Pointer.ofCandidates (h.ofPointer base))
      | refuting (halt (.pointsNowhere base))
    let renames ← onHeap (HeapM.addEdge (.root base b))
    replay renames
    replay (← onHeap (HeapM.addEdge ((Edge.ofField b field objects).renameAll renames)))

def promoteAll (h : HeapGraph) : List (Pointer × Field × Pointer) → QueryM Unit
  | [] => pure ()
  | e :: rest => do
    promote h e
    promoteAll h rest

/-- Brings the two stores into line. -/
def settle (h : HeapGraph) : QueryM Unit := do
  replayPending
  promoteAll h (← onPath PathM.takeSiteEqualities)
  replayPending
  requireNoNullConflict

/-! ## Instructions -/

/-- The rules that concern the heap store, and the first local that one of them gives an object
while the path needs it to be null. -/
structure Selection where
  relevant : List Rule := []
  nullShown : Option Pointer := none

/-- Sorts the rules of an instruction. An edge that only the path store uses is recorded as
produced. -/
def select (site : Site) : List Rule → Selection → QueryM Selection
  | [], s => pure s
  | r :: rest, s => do
    let q ← store
    let p := r.shown.source
    let bindsNull := r.shown.isRoot && p.isFrame && q.path.requiresNull p
    let s := { s with nullShown := s.nullShown <|> if bindsNull then some p else none }
    if q.heap.isRuleRelevant r then
      select site rest { s with relevant := s.relevant ++ [r] }
    else
      if q.path.isRelevant p && !site.inLoop then onHeap (HeapM.logProduced r.shown)
      select site rest s

/-- The instruction was executed before the query; returns the further cases. -/
def visit (h : HeapGraph) (site : Site) (i : Instruction) (source : RuleSource) :
    QueryM (List Query) := do
  requireAlive
  requireNoNullConflict
  let selection ← select site (← fresh (source.rules h site i)) {}
  let paths ← refuting (onPath (PathM.visit h site i))
  if let some p := selection.nullShown then refuting (halt (.nullConflict p))
  let heaps ← refuting (onHeap (HeapM.visit h site i selection.relevant))
  let q ← store
  let pairs := (q.heap :: heaps).flatMap fun heap =>
    (q.path :: paths).map fun path => { q with heap, path }
  let cases ← attemptAll (pairs.map (settle h, ·)) {}
  if cases.live.length > 1 then
    debug .query (i.name ++ " splits into " ++ toString cases.live.length ++ " cases")
  commit (fun r => refuting (halt r)) cases

/-! ## Calls -/

def enterCallee (call : Instruction) (caller : Site) (callee : MethodId) : QueryM Unit := do
  requireAlive
  refuting do
    onPath (PathM.enterCallee call caller callee)
    onHeap (HeapM.enterCallee call caller callee)

def returnToCaller (call : Instruction) (caller : Site) : QueryM Unit := do
  requireAlive
  refuting do
    onPath (PathM.returnToCaller call caller)
    onHeap (HeapM.returnToCaller call caller)
    replayPending
    requireNoNullConflict

def skipCall (call : Instruction) (caller : Site) : QueryM Unit := do
  requireAlive
  refuting do
    onPath (PathM.skipCall call caller)
    onHeap (HeapM.skipCall call caller)

end QueryM

end Refuter
