import Refuter.Pointer

/-!
Points-to facts of a program, as plain tables.
-/

namespace Refuter

/-- What a root may point to. -/
structure RootFact where
  root : Location
  pointsTo : List Location
  deriving DecidableEq, Repr, Inhabited

/-- A field of `source` may point to `sink`. -/
structure FieldFact where
  source : Location
  field : Field
  sink : Location
  deriving DecidableEq, Repr, Inhabited

structure HeapGraph where
  roots : List RootFact := []
  edges : List FieldFact := []
  /-- declared fields, to find one by name -/
  fields : List Field := []
  deriving DecidableEq, Repr, Inhabited

namespace HeapGraph

/-- Locations that a root may point to. -/
def ofRoot (h : HeapGraph) (root : Location) : Locations :=
  .ofList ((h.roots.filter (·.root = root)).flatMap RootFact.pointsTo)

/-- Locations that a field of `source` may point to. -/
def pointsTo (h : HeapGraph) (source : Location) (field : Field) : Locations :=
  .ofList ((h.edges.filter fun e => e.source = source && e.field = field).map FieldFact.sink)

/-- Locations whose field may point to `sink`. -/
def pointsAt (h : HeapGraph) (sink : Location) (field : Field) : Locations :=
  .ofList ((h.edges.filter fun e => e.sink = sink && e.field = field).map FieldFact.source)

/-- A declared field by class and name. -/
def field? (h : HeapGraph) (className name : String) : Option Field :=
  h.fields.find? (· = .named className name)

/-- Objects that a location may denote: a site denotes itself, a root what it points to, and an
index name nothing. -/
def ofLocation (h : HeapGraph) (x : Location) : Locations :=
  match x with
  | .site _ => .singleton x
  | .index _ => ∅
  | .slot .. | .result _ | .global _ => h.ofRoot x

/-- Objects that a pointer may denote. -/
def ofPointer (h : HeapGraph) (p : Pointer) : Locations :=
  .bind p.candidates.toList h.ofLocation

def mayAlias (h : HeapGraph) (p q : Pointer) : Bool :=
  p = q || (h.ofPointer q).toList.any (· ∈ h.ofPointer p)

/-- Adds to the first fact on `root`, or a new fact. -/
def addRoot (h : HeapGraph) (root : Location) (pointsTo : List Location) : HeapGraph :=
  let rec extend : List RootFact → List RootFact
    | [] => [⟨root, pointsTo⟩]
    | r :: rest =>
      if r.root = root then { r with pointsTo := r.pointsTo ++ pointsTo } :: rest
      else r :: extend rest
  { h with roots := extend h.roots }

/-- Adds a field fact, and declares the field if it is new. -/
def addEdge (h : HeapGraph) (source : Location) (field : Field) (sink : Location) : HeapGraph :=
  { h with
    edges := h.edges ++ [⟨source, field, sink⟩]
    fields := if field ∈ h.fields then h.fields else h.fields ++ [field] }

end HeapGraph

end Refuter
