import Refuter.Heap.Rule
import Refuter.Term.Basic

/-!
Scenarios: a recorded walk.

A scenario holds a goal, the points-to facts of the program, and the steps of one backward path in
the order they are visited.
-/

namespace Refuter

inductive Verdict where
  | witness | refuted | undecided
  deriving DecidableEq, Repr, Inhabited

namespace Verdict

def text : Verdict → String
  | witness => "witness"
  | refuted => "refuted"
  | undecided => "open"

def all : List Verdict := [witness, refuted, undecided]

end Verdict

/-- Side of a goal constraint. -/
inductive GoalTerm where
  | const (value : Int64)
  | path (base : Location) (fields : List Field)
  deriving DecidableEq, Repr, Inhabited

def GoalTerm.term : GoalTerm → Term
  | const v => .const v
  | path base fields => .var ⟨.known base, fields⟩

inductive Goal where
  /-- the sink may be any of the locations -/
  | edge (source : Location) (field : Option Field) (sink : List Location)
  | constraint (lhs : GoalTerm) (op : CmpOp) (rhs : GoalTerm)
  deriving DecidableEq, Repr, Inhabited

/-- Edge of a written rule; each end is a set of candidates. -/
structure EdgePattern where
  source : List Location
  field : Option Field
  sink : List Location
  deriving DecidableEq, Repr, Inhabited

structure RulePattern where
  shown : EdgePattern
  premises : List EdgePattern := []
  deriving DecidableEq, Repr, Inhabited

inductive Step where
  /-- written rules replace those derived from the facts -/
  | visit (site : Site) (i : Instruction) (rules : Option (List RulePattern))
  | enterCallee (site : Site) (call : Instruction) (callee : MethodId)
  | returnToCaller (site : Site) (call : Instruction)
  | skipCall (site : Site) (call : Instruction)
  | declareWitness
  deriving DecidableEq, Repr, Inhabited

structure Scenario where
  name : String := ""
  heap : HeapGraph := {}
  goal : Goal
  trace : List Step := []
  expect : Option Verdict := none
  deriving DecidableEq, Repr, Inhabited

/-! ## Written rules -/

/-- Pointers of one rule by their candidates. -/
abbrev PatternPointers := List (Locations × Pointer)

/-- The pointer over some candidates; within a rule equal sets are the same pointer. -/
def PatternPointers.pointer? (known : PatternPointers) (candidates : List Location) :
    Fresh (Option (Pointer × PatternPointers)) := do
  let set : Locations := .ofList candidates
  match known.lookup set with
  | some p => return some (p, known)
  | none =>
    let some p ← Pointer.ofCandidates set | return none
    return some (p, (set, p) :: known)

/-- The edge of a pattern, unless an end has no candidates. -/
def EdgePattern.edge? (e : EdgePattern) (known : PatternPointers) :
    Fresh (Option (Edge × PatternPointers)) := do
  let some (source, known) ← known.pointer? e.source | return none
  let some (sink, known) ← known.pointer? e.sink | return none
  return some (⟨source, e.field, sink⟩, known)

def EdgePattern.edges? : List EdgePattern → PatternPointers → Fresh (Option (List Edge))
  | [], _ => pure (some [])
  | e :: rest, known => do
    let some (edge, known) ← e.edge? known | return none
    let some edges ← edges? rest known | return none
    return some (edge :: edges)

/-- The rule of a pattern, unless an edge has an end without candidates. -/
def RulePattern.rule? (r : RulePattern) (m : MethodId) : Fresh (Option Rule) := do
  let some (shown, known) ← r.shown.edge? [] | return none
  let some premises ← EdgePattern.edges? r.premises known | return none
  return some ⟨shown, premises, m⟩

def RulePattern.rules? : List RulePattern → MethodId → Fresh (Option (List Rule))
  | [], _ => pure (some [])
  | r :: rest, m => do
    let some rule ← r.rule? m | return none
    let some rules ← rules? rest m | return none
    return some (rule :: rules)

end Refuter
