import Refuter.PathStore.Basic

/-!
Substitution in the whole path store.

Every constraint is changed in turn. The first one that becomes false refutes the store and
leaves it as it was; otherwise the results replace the constraints, each comparison once.
-/

namespace Refuter

namespace Settled

/-- The constraint became false. -/
def isFalse : Settled → Bool
  | resolved false => true
  | _ => false

def isUnchanged : Settled → Bool
  | unchanged => true
  | _ => false

/-- What stands for `c` afterwards. -/
def remains (c : Constraint) : Settled → Option Constraint
  | unchanged => some c
  | changed d => some d
  | resolved _ | dropped => none

/-- What the journal says about `c`. -/
def note? (c : Constraint) : Settled → Option String
  | unchanged | resolved false => none
  | changed d => some (c.text ++ " => " ++ d.text)
  | resolved true => some (c.text ++ " => true")
  | dropped => some ("dropping " ++ c.text)

end Settled

namespace PathM

open StoreM

def debugAll : List String → PathM Unit
  | [] => pure ()
  | text :: rest => do
    debug .path text
    debugAll rest

/-- Changes every constraint and says whether any differs. -/
def changeAll (f : Constraint → Settled) : PathM Bool := do
  requireFeasible
  let cs := (← store).constraints
  debugAll ((cs.takeWhile fun c => !(f c).isFalse).filterMap fun c => (f c).note? c)
  match cs.find? fun c => (f c).isFalse with
  | some c => refute (.contradiction c)
  | none =>
    if cs.all fun c => (f c).isUnchanged then return false
    setConstraints ((cs.filterMap fun c => (f c).remains c).eraseDupsBy Constraint.sameAs)
    return true

/-- Replaces `target` by `insert`; chains are only carried over to a bare pointer. -/
def substitute (insert : Term) (target : AccessPath) : PathM Bool :=
  changeAll (Constraint.replace (Term.substitute insert target))

/-- Replaces `target` by `insert`; chains are concatenated. -/
def splice (insert : Term) (target : AccessPath) : PathM Bool :=
  changeAll (Constraint.replace (Term.splice insert target))

/-- Replaces the read of `field` through `base` by `insert`. -/
def spliceRead (insert : Term) (base : Pointer) (field : Field) : PathM Bool :=
  changeAll (Constraint.replace (Term.spliceRead insert base field))

/-- Replaces the reads of each of the fields through `base` by `insert`. -/
def spliceReads (insert : Term) (base : Pointer) : List Field → PathM Unit
  | [] => pure ()
  | f :: rest => do
    let _ ← spliceRead insert base f
    spliceReads insert base rest

/-- Replaces a pointer everywhere, also under field chains. -/
def rename (p q : Pointer) : PathM Bool := do
  if !(← store).isRelevant p then return false
  substitute (.bare q) ⟨p, []⟩

/-- Forgets the constraints that satisfy a test and says whether there are any. -/
def dropWhere (test : Constraint → Bool) : PathM Bool := do
  let cs := (← store).constraints
  debugAll ((cs.filter test).map ("dropping " ++ ·.text))
  if cs.any test then
    setConstraints (cs.filter (!test ·))
    return true
  return false

def dropMentioning (p : Pointer) : PathM Bool := do
  if !(← store).isRelevant p then return false
  dropWhere (·.mentions p)

end PathM

end Refuter
