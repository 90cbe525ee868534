import Refuter.HeapStore.Calls
import Refuter.PathStore.Calls

/-!
A query: a heap store and a path store that hold together on one branch of the search.
-/

namespace Refuter

structure Query where
  heap : HeapStore := {}
  path : PathStore := .empty
  /-- declared a witness without proof -/
  optimistic : Bool := false
  feasible : Bool := true
  deriving DecidableEq, Inhabited

abbrev QueryM := StoreM Query

namespace Query

/-- Neither the query nor one of its stores is refuted. -/
def isAlive (q : Query) : Bool := q.feasible && q.heap.feasible && q.path.feasible

/-- Nothing is left to produce. -/
def isWitness (q : Query) : Bool := q.feasible && q.heap.isWitness && q.path.isWitness

def text (q : Query) : String :=
  if q.feasible then q.heap.text ++ " | " ++ q.path.text else "refuted"

/-- A root that must point somewhere and must be null. -/
def nullConflict? (q : Query) : Option Pointer :=
  ((q.heap.owed.toList.filter fun e => e.isRoot && e.source.isFrame).find?
    fun e => q.path.requiresNull e.source).map Edge.source

def markRefuted (q : Query) : Query := { q with feasible := false }

end Query

namespace QueryM

open StoreM

variable {α : Type}

def onHeap (x : HeapM α) : QueryM α := onPart Query.heap (fun s q => { q with heap := s }) x

def onPath (x : PathM α) : QueryM α := onPart Query.path (fun s q => { q with path := s }) x

/-- A refutation of the operation refutes the query. -/
def refuting (x : QueryM α) : QueryM α := onRefuted Query.markRefuted x

def requireAlive : QueryM Unit := do
  if !(← store).isAlive then halt .alreadyRefuted

def requireNoNullConflict : QueryM Unit := do
  if let some p := (← store).nullConflict? then refuting (halt (.nullConflict p))

/-- Replays renames of the heap store on the path store. -/
def replay : List (Pointer × Pointer) → QueryM Unit
  | [] => pure ()
  | (p, q) :: rest => do
    let _ ← onPath (PathM.rename p q)
    replay rest

/-- Replays the renames that the path store has not seen. -/
def replayPending : QueryM Unit := do
  replay (← onHeap HeapM.takeRenames)

/-- Starts a search for an edge. -/
def requireEdge (e : Edge) : QueryM Unit := do
  let _ ← onHeap (HeapM.addEdge e)

/-- Starts a search for a constraint. -/
def requireConstraint (c : Constraint) : QueryM Unit := onPath (PathM.add c)

/-- Gives up on the branch and counts it as reachable. -/
def declareWitness : QueryM Unit := do
  let q ← store
  if q.optimistic then return
  session (Session.note .info .query ("declaring an optimistic witness: " ++ q.text))
  setStore { q with optimistic := true }
  session Session.noteOptimistic

/-- Checks the heap store, and then the path store with the solver. -/
def check : QueryM Unit := do
  requireAlive
  refuting do
    onHeap HeapM.check
    onPath PathM.check

/-- Whether both stores still hold; a store found refuted refutes the query. -/
def isFeasible : QueryM Bool := do
  let q ← store
  let feasible ← if q.feasible && q.heap.feasible then onPath PathM.isFeasible else pure false
  modifyStore fun q => { q with feasible }
  return feasible

end QueryM

end Refuter
