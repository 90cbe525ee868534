import Refuter.HeapStore.Basic

/-!
Narrowing: the ends of every owed field edge are restricted to what the points-to facts allow,
until nothing changes.

Every round replaces one choice by a pointer with fewer candidates, so the number of candidates
over all edges bounds the number of rounds.
-/

namespace Refuter

/-- What one round of narrowing does. -/
inductive NarrowStep where
  | done
  /-- the facts cannot produce the edge -/
  | stuck (e : Edge)
  | rename (p q : Pointer)
  deriving DecidableEq

namespace NarrowStep

/-- The round that restricting the end `p` of `e` asks for. -/
def ofNarrowed (e : Edge) (p : Pointer) : Pointer.Narrowed → NarrowStep
  | .same => done
  | .empty => stuck e
  | .to q => rename p q

/-- Restricts the sink to what the field of the source's objects may point to. -/
def ofSink (h : HeapGraph) (e : Edge) (f : Field) : Fresh NarrowStep := do
  let sources := h.ofPointer e.source
  if sources.isEmpty then return done
  return ofNarrowed e e.sink (← e.sink.narrow (.bind sources.toList (h.pointsTo · f)))

/-- Restricts the source to the objects whose field may point to the sink. -/
def ofSource (h : HeapGraph) (e : Edge) (f : Field) : Fresh NarrowStep := do
  if e.source.isFrame then return done
  let sinks := h.ofPointer e.sink
  if sinks.isEmpty then return done
  return ofNarrowed e e.source (← e.source.narrow (.bind sinks.toList (h.pointsAt · f)))

/-- The round that an edge asks for; only proper fields have facts. -/
def ofEdge (h : HeapGraph) (e : Edge) : Fresh NarrowStep := do
  match e.field with
  | none => return done
  | some f =>
    if f.isPseudo then return done
    match ← ofSink h e f with
    | done => ofSource h e f
    | step => return step

/-- The round that the first edge in need asks for. -/
def first (h : HeapGraph) : List Edge → Fresh NarrowStep
  | [] => pure done
  | e :: rest => do
    match ← ofEdge h e with
    | done => first h rest
    | step => return step

end NarrowStep

/-- Candidates of both ends. -/
def Edge.weight (e : Edge) : Nat := e.source.candidates.size + e.sink.candidates.size

/-- Candidates of the ends of all owed edges. -/
def HeapStore.weight (s : HeapStore) : Nat := s.owed.toList.foldr (·.weight + ·) 0

namespace HeapM

open StoreM

/-- At most `rounds` rounds of narrowing. -/
def narrowRounds (h : HeapGraph) : (rounds : Nat) → HeapM Unit
  | 0 => pure ()
  | rounds + 1 => do
    match ← fresh (NarrowStep.first h (← store).owed.toList) with
    | .done => pure ()
    | .stuck e => refute (.narrowed e)
    | .rename p q =>
      rename p q
      narrowRounds h rounds

/-- Restricts the ends of all owed field edges to what the facts allow. -/
def narrow (h : HeapGraph) : HeapM Unit := do
  if (← options).narrowFromConstraints then
    narrowRounds h ((← store).weight + 1)

end HeapM

end Refuter
