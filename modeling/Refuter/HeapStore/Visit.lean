import Refuter.HeapStore.Binding
import Refuter.HeapStore.Narrow

/-!
Effect of one instruction on the heap store, going backwards.

Each way to discharge an owed edge by a rule is a case. If the rule writes into objects that need
not be the ones an owed edge is about, the store as it was is one more case. The store becomes the
first case that survives and the others are returned.
-/

namespace Refuter

namespace HeapM

open StoreM

/-- Discharges an edge by a rule: its premises are owed instead. -/
def apply (h : HeapGraph) (site : Site) (r : Rule) (b : Binding) : HeapM Unit := do
  debug .heap ("applying " ++ r.text ++ " to " ++ b.obligation.text)
  discharge b.obligation
  rename b.obligation.source b.source
  rename b.obligation.sink b.sink
  let r := b.apply r
  addEdges [] r.premises
  if !site.inLoop then logProduced r.shown
  narrow h

/-- The ways to apply some rules. -/
structure Applications where
  chosen : List (Rule × Binding) := []
  inconsistent : Nat := 0
  /-- some rule may be about other objects -/
  keepUnapplied : Bool := false

/-- Classifies the rules in turn. -/
def classify : List Rule → Applications → HeapM Applications
  | [], a => pure a
  | r :: rest, a => do
    let narrowing := (← options).narrowFromConstraints
    match ← fresh (Classification.ofRule narrowing (← store) r) with
    | .consistent bindings =>
      classify rest { a with
        chosen := a.chosen ++ bindings.map (r, ·)
        keepUnapplied := a.keepUnapplied || !r.shown.source.isUnique }
    | .inconsistent =>
      debug .heap ("inconsistent: " ++ r.text)
      classify rest { a with inconsistent := a.inconsistent + 1 }
    | .inapplicable => classify rest a

/-- Whether an owed edge on the defined local must come from a rule. -/
def mustProduce : Instruction → Bool
  | .invoke .. | .metadata _ => false
  | _ => true

/-- Root edges owed on `p`. -/
def rootEdges (s : HeapStore) (p : Pointer) : List Edge :=
  s.owed.toList.filter fun e => e.isRoot && e.source = p

/-- An owed edge on the local that the instruction defines without a rule for it. -/
def unproduced? (s : HeapStore) (site : Site) (i : Instruction) : Option Edge :=
  if mustProduce i then i.target?.bind fun d => (rootEdges s (.slot site.method d)).head? else none

/-- Gives up edges, for want of a model. -/
def forget : List Edge → HeapM Unit
  | [] => pure ()
  | e :: rest => do
    debug .heap ("no model for " ++ e.text ++ ", dropping it")
    discharge e
    forget rest

/-- No rule applies to the instruction. -/
def withoutRule (site : Site) (i : Instruction) (inconsistent : Nat) : HeapM Unit := do
  if inconsistent > 0 then refute (.noConsistentRule inconsistent)
  if let some e := unproduced? (← store) site i then refute (.nullBinding e)
  if let .metadata d := i then forget (rootEdges (← store) (.slot site.method d))

/-- One case for each way to apply one of the rules. -/
def dispatch (h : HeapGraph) (site : Site) (i : Instruction) (rules : List Rule) :
    HeapM (List HeapStore) := do
  let a ← classify rules {}
  if a.chosen.isEmpty then
    withoutRule site i a.inconsistent
    return []
  let s ← store
  let cases ← attemptAll (a.chosen.map fun (r, b) => (apply h site r b, s)) {}
  commit refute { cases with live := cases.live ++ if a.keepUnapplied then [s] else [] }

/-- Moves edges from the root `p` to `q`. -/
def moveEdges (p q : Pointer) : List Edge → HeapM Unit
  | [] => pure ()
  | e :: rest => do
    discharge e
    let _ ← addEdge (e.rename p q)
    moveEdges p q rest

/-- Edges owed with source `p`. -/
def edgesOf (s : HeapStore) (p : Pointer) : List Edge := s.owed.toList.filter (·.source = p)

/-- What the return slot owes is owed by the returned local. -/
def visitReturn (site : Site) (value : Option Operand) : HeapM Unit := do
  let slot := Pointer.result site.method
  match edgesOf (← store) slot, value.bind Operand.local? with
  | [], _ => pure ()
  | moving, some l => moveEdges slot (.slot site.method l) moving
  | e :: _, none => refute (.nullBinding e)

/-- The instruction was executed before the store; returns the further cases. -/
def visit (h : HeapGraph) (site : Site) (i : Instruction) (rules : List Rule) :
    HeapM (List HeapStore) := do
  requireFeasible
  if let .ret value := i then
    visitReturn site value
    return []
  let s ← store
  dispatch h site i (rules.filter s.isRuleRelevant)

end HeapM

end Refuter
