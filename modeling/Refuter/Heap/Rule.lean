import Refuter.Heap.Edge
import Refuter.Heap.Graph
import Refuter.Program.Instruction

/-!
Production rules: an instruction produces an edge, provided that its premises hold before.

`Rule.derive` reads the rule of an instruction off the points-to facts. The candidates of each new
pointer are what the facts allow; no rule exists where they allow nothing.
-/

namespace Refuter

structure Rule where
  /-- the edge produced -/
  shown : Edge
  /-- edges that must hold before the instruction -/
  premises : List Edge
  method : MethodId
  deriving DecidableEq, Inhabited

namespace Rule

def rename (p q : Pointer) (r : Rule) : Rule :=
  { r with shown := r.shown.rename p q, premises := r.premises.map (Edge.rename p q) }

def text (r : Rule) : String :=
  match r.premises with
  | [] => r.shown.text
  | premises => r.shown.text ++ " <= " ++ ", ".intercalate (premises.map Edge.text)

/-- `target` takes what the root `source` points to. -/
def copy (h : HeapGraph) (m : MethodId) (target source : Location) : Fresh (Option Rule) := do
  let some x ← Pointer.ofCandidates (h.ofRoot source) | return none
  return some ⟨.root (.known target) x, [.root (.known source) x], m⟩

/-- `target` takes what `field` of the objects of `base` points to. -/
def read (h : HeapGraph) (m : MethodId) (target base : Location) (field : Field) :
    Fresh (Option Rule) := do
  let bases := h.ofRoot base
  let sinks : Locations := .bind bases.toList (h.pointsTo · field)
  let some b ← Pointer.ofCandidates bases | return none
  let some x ← Pointer.ofCandidates sinks | return none
  return some ⟨.root (.known target) x, [.root (.known base) b, .ofField b field x], m⟩

/-- `field` of the objects of `base` takes what `value` points to. -/
def write (h : HeapGraph) (m : MethodId) (base : Location) (field : Field) (value : Location) :
    Fresh (Option Rule) := do
  let some b ← Pointer.ofCandidates (h.ofRoot base) | return none
  let some v ← Pointer.ofCandidates (h.ofRoot value) | return none
  return some ⟨.ofField b field v, [.root (.known base) b, .root (.known value) v], m⟩

/-- The rule that the facts give for an instruction, if it moves references. -/
def derive? (h : HeapGraph) (site : Site) (i : Instruction) : Fresh (Option Rule) :=
  let m := site.method
  match i with
  | .new d s | .newArray d s _ => pure (some ⟨.root (.slot m d) (.site s), [], m⟩)
  | .assign d (.slot v) | .checkCast d (.slot v) => copy h m (.slot m d) (.slot m v)
  | .load d base field => read h m (.slot m d) (.slot m base) field
  | .arrayLoad d array _ => read h m (.slot m d) (.slot m array) .contents
  | .staticLoad d field => copy h m (.slot m d) (.global field)
  | .store base field (.slot v) => write h m (.slot m base) field (.slot m v)
  | .arrayStore array _ (.slot v) => write h m (.slot m array) .contents (.slot m v)
  | .staticStore field (.slot v) => copy h m (.global field) (.slot m v)
  | _ => pure none

def derive (h : HeapGraph) (site : Site) (i : Instruction) : Fresh (List Rule) := do
  return (← derive? h site i).toList

end Rule

end Refuter
