import Refuter.Constraint
import Refuter.Session.Journal
import Refuter.Session.Options
import Refuter.Smt.Solver

/-!
State that all branches of one search share: the settings, the supplies of numbers, the solver and
the journal. Once the solver failed or could not decide a formula it is not asked again.

The supplies are counters of 64 bits. Here they are natural numbers: the wrap-around after 2^64
numbers, which no search comes to, is left out.
-/

namespace Refuter

structure Session where
  options : Options := {}
  solver : Option Smt.Solver := none
  /-- next number for choices and index names -/
  nextId : Nat := 0
  nextConstraint : Nat := 0
  solverDisabled : Bool := false
  /-- branches that were declared witnesses without proof -/
  optimistic : Nat := 0
  /-- the newest first -/
  journal : List Record := []

abbrev SessionM := StateM Session

namespace Session

/-- The journal, the oldest first. -/
def records (s : Session) : List Record := s.journal.reverse

def note (level : Level) (topic : Topic) (text : String) : SessionM Unit :=
  modify fun s => { s with journal := ⟨level, topic, text⟩ :: s.journal }

/-- Takes numbers from the supply for choices. -/
def fresh {α : Type} (x : Fresh α) : SessionM α := fun s =>
  let (a, next) := x s.nextId
  (a, { s with nextId := next })

def freshConstraint : SessionM ConstraintId := fun s =>
  (⟨s.nextConstraint⟩, { s with nextConstraint := s.nextConstraint + 1 })

/-- A new constraint under the next number. -/
def constraint (lhs : Term) (op : CmpOp) (rhs : Term) : SessionM Constraint :=
  return ⟨lhs, op, rhs, ← freshConstraint⟩

def noteOptimistic : SessionM Unit :=
  modify fun s => { s with optimistic := s.optimistic + 1 }

/-- Gives up on the solver and tells why. -/
def disableSolver (reason : String) : SessionM Unit := do
  note .warn .session reason
  modify fun s => { s with solverDisabled := true }

/-- Asks the solver. The answer is unknown if there is none or if it gave up, now or before. -/
def check (formula : Smt.Formula) (ints : List String) : SessionM Smt.Answer := do
  let s ← get
  match s.solver with
  | none => return .unknown
  | some solver =>
    if s.solverDisabled then return .unknown
    match Smt.Solver.check formula ints solver with
    | .ok answer solver =>
      set { s with solver := some solver }
      if answer = .unknown then
        disableSolver ("smt solver could not decide a path, assuming feasible from here on. " ++
          "you can increase the timeout with --smt-timeout")
      return answer
    | .error reason solver =>
      set { s with solver := some solver }
      disableSolver ("smt solver: " ++ reason ++ ", assuming feasible from here on")
      return .unknown

end Session

end Refuter
