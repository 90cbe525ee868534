import Refuter.Heap.Rule
import Refuter.StoreM

/-!
The heap store: edges that the explored path still owes, and edges that it has produced.

A root can be bound only once, so a second edge on it is merged into the first. Merging may
replace a pointer by a narrower one; such renames are kept until the path store has seen them.
-/

namespace Refuter

structure HeapStore where
  /-- edges still to be produced -/
  owed : SortedSet Edge := ∅
  /-- edges already produced, the oldest first -/
  produced : List Edge := []
  /-- replacements that the path store has not seen, the oldest first -/
  renames : List (Pointer × Pointer) := []
  feasible : Bool := true
  deriving DecidableEq, Inhabited

abbrev HeapM := StoreM HeapStore

namespace HeapStore

/-- Replaces a pointer in all edges. -/
def replace (p q : Pointer) (s : HeapStore) : HeapStore :=
  { s with owed := s.owed.map (Edge.rename p q), produced := s.produced.map (Edge.rename p q) }

/-- The produced edge of a rule touches something the store talks about. -/
def isRuleRelevant (s : HeapStore) (r : Rule) : Bool :=
  (s.owed.toList ++ s.produced).any fun e =>
    [r.shown.source, r.shown.sink].any fun p => p.overlaps e.source || p.overlaps e.sink

/-- Nothing is left to produce. -/
def isWitness (s : HeapStore) : Bool := s.feasible && s.owed.isEmpty

def text (s : HeapStore) : String :=
  if !s.feasible then "refuted"
  else if s.owed.isEmpty then "emp"
  else " * ".intercalate (s.owed.toList.map Edge.text)

end HeapStore

namespace HeapM

open StoreM

/-- Marks the store as refuted and halts. -/
def refute {α : Type} (r : Refutation) : HeapM α := do
  debug .heap ("heap refuted: " ++ r.message)
  modifyStore fun s => { s with feasible := false }
  halt r

def requireFeasible : HeapM Unit := do
  if !(← store).feasible then halt .alreadyRefuted

def owe (e : Edge) : HeapM Unit := modifyStore fun s => { s with owed := s.owed.insert e }

def discharge (e : Edge) : HeapM Unit := modifyStore fun s => { s with owed := s.owed.erase e }

/-- Replaces a pointer in all edges and remembers it for the path store. -/
def rename (p q : Pointer) : HeapM Unit := do
  if p = q then return
  debug .heap (p.text ++ " := " ++ q.text)
  modifyStore fun s => { s.replace p q with renames := s.renames ++ [(p, q)] }

/-- Records a produced edge once. -/
def logProduced (e : Edge) : HeapM Unit :=
  modifyStore fun s => if e ∈ s.produced then s else { s with produced := s.produced ++ [e] }

/-- Hands the remembered renames over. -/
def takeRenames : HeapM (List (Pointer × Pointer)) := do
  let renames := (← store).renames
  modifyStore fun s => { s with renames := [] }
  return renames

def requireWellFormed (p : Pointer) : HeapM Unit :=
  match p with
  | .choice id cs => if cs.size < 2 then throw (.fault (.malformedChoice id cs.size)) else pure ()
  | .known _ => pure ()

/-- The owed edge that binds the same root as `e`. -/
def binding? (s : HeapStore) (e : Edge) : Option Edge :=
  if e.source.isUnique then
    s.owed.toList.find? fun d => d.source = e.source && d.field = e.field
  else none

theorem binding?_eq_some {s : HeapStore} {e d : Edge} (h : binding? s e = some d) :
    e.source.isUnique = true ∧ d ∈ s.owed ∧ d.source = e.source ∧ d.field = e.field := by
  unfold binding? at h
  split at h
  · rename_i hu
    have hp := List.find?_some h
    simp only [Bool.and_eq_true, decide_eq_true_eq] at hp
    exact ⟨hu, List.mem_of_find?_eq_some h, hp⟩
  · cases h

theorem binding?_eq_none {s : HeapStore} {e d : Edge} (h : binding? s e = none)
    (hu : e.source.isUnique = true) (hd : d ∈ s.owed) :
    ¬ (d.source = e.source ∧ d.field = e.field) := by
  unfold binding? at h
  rw [if_pos hu] at h
  simpa using List.find?_eq_none.1 h d hd

/-- Renames the choices among `olds` that differ from `p`, and returns these renames. -/
def renameChoices (p : Pointer) : List Pointer → HeapM (List (Pointer × Pointer))
  | [] => pure []
  | old :: rest => do
    if old ≠ p && old.isChoice then
      rename old p
      return (old, p) :: (← renameChoices p rest)
    renameChoices p rest

/-- Adds an edge to produce. A second edge on a root is merged into the first one. Returns the
renames this caused. -/
def addEdge (e : Edge) : HeapM (List (Pointer × Pointer)) := do
  requireFeasible
  requireWellFormed e.source
  requireWellFormed e.sink
  match binding? (← store) e with
  | none =>
    debug .heap ("heap += " ++ e.text)
    owe e
    return []
  | some bound =>
    let narrowing := (← options).narrowFromConstraints
    match ← fresh (Pointer.merge narrowing bound.sink e.sink) with
    | none => refute (.emptyIntersection bound e)
    | some p => renameChoices p [bound.sink, e.sink]

/-- Adds edges in turn; each sees the renames that the earlier ones caused. -/
def addEdges (renames : List (Pointer × Pointer)) : List Edge → HeapM Unit
  | [] => pure ()
  | e :: rest => do
    let caused ← addEdge (e.renameAll renames)
    addEdges (renames ++ caused) rest

def check : HeapM Unit := requireFeasible

end HeapM

end Refuter
