import Refuter.Constraint
import Refuter.Heap.Edge
import Refuter.Program.Instruction

/-!
Why an operation on a store stops.

A refutation is the expected end of most searches: the store cannot hold on the explored path. A
fault is a broken promise of the caller.
-/

namespace Refuter

inductive Refutation where
  /-- a constraint became constant and is false -/
  | contradiction (c : Constraint)
  /-- the solver found no solution -/
  | unsat (constraints : List ConstraintId)
  /-- every relevant rule disagrees with an existing binding -/
  | noConsistentRule (inconsistent : Nat)
  /-- two bindings of one root share no location -/
  | emptyIntersection (bound added : Edge)
  /-- the points-to facts cannot produce the edge -/
  | narrowed (edge : Edge)
  /-- the points-to facts give the pointer nothing to point to -/
  | pointsNowhere (source : Pointer)
  /-- a value that is null or no reference should point somewhere -/
  | nullBinding (edge : Edge)
  /-- an edge of the callee's frame is still owed at its entry -/
  | unproducible (edge : Edge)
  /-- a location is required to be null and bound to an object -/
  | nullConflict (root : Pointer)
  | alreadyRefuted
  deriving DecidableEq

def Refutation.message : Refutation → String
  | contradiction c => "constraint " ++ c.id.text ++ " evaluates to false: " ++ c.text
  | unsat ids => "unsatisfiable conjunction of [" ++ ", ".intercalate (ids.map (·.text)) ++ "]"
  | noConsistentRule n => "all " ++ toString n ++ " relevant rules are inconsistent"
  | emptyIntersection bound added =>
    "no instance satisfies both bindings of " ++ bound.text ++ " and " ++ added.text
  | narrowed e => "heap model cannot produce " ++ e.text
  | pointsNowhere p => "heap model cannot produce " ++ p.text ++ " -> _"
  | nullBinding e => e.text ++ " requires a null value to point somewhere"
  | unproducible e => "nothing in the callee can produce " ++ e.text
  | nullConflict p => p.text ++ " is required to be null but is bound to an object"
  | alreadyRefuted => "refuted earlier"

/-- What a step on a call does. -/
inductive CallStep where
  | enterCallee | returnToCaller | skipCall
  deriving DecidableEq, Repr, Inhabited

inductive Fault where
  /-- a choice with fewer than two candidates -/
  | malformedChoice (id : Nat) (candidates : Nat)
  /-- a step on a call met another instruction -/
  | notACall (step : CallStep) (i : Instruction)
  deriving DecidableEq

def Fault.message : Fault → String
  | malformedChoice id n =>
    "ICE: symbolic variable _sym" ++ toString id ++ " with " ++ toString n ++ " candidates"
  | notACall .enterCallee i => "ICE: entering a callee from " ++ i.name
  | notACall .returnToCaller i => "ICE: returning to a caller through " ++ i.name
  | notACall .skipCall i => "ICE: skipping a call through " ++ i.name

inductive Halt where
  | refuted (r : Refutation)
  | fault (f : Fault)
  deriving DecidableEq

end Refuter
