import Refuter.Smt.Formula

/-!
One incremental solver context.

Each check asserts its formula under a new marker and assumes that marker only, so that earlier
checks do not constrain later ones. A backend sees nothing but the calls; it is a function of
them, the newest first, and may fail any of them.
-/

namespace Refuter.Smt

inductive Answer where
  | sat | unsat | unknown
  deriving DecidableEq, Repr, Inhabited

def Answer.text : Answer → String
  | sat => "Sat"
  | unsat => "Unsat"
  | unknown => "Unknown"

/-- Request to a backend. -/
inductive Call where
  | declareInt (name : String)
  | declareBool (name : String)
  /-- the marker implies the formula -/
  | assert (marker : String) (formula : Formula)
  /-- satisfiability under the marker -/
  | check (marker : String)
  deriving DecidableEq, Repr, Inhabited

def Call.text : Call → String
  | declareInt name => "int " ++ name
  | declareBool name => "bool " ++ name
  | assert marker formula => "assert " ++ implicationText marker formula.text
  | check marker => "check " ++ marker

/-- Line that a transcript holds for a call. -/
def Call.command : Call → String
  | declareInt name => "(declare-const " ++ name ++ " Int)"
  | declareBool name => "(declare-const " ++ name ++ " Bool)"
  | assert marker formula => "(assert " ++ implicationText marker formula.text ++ ")"
  | check marker => "(check-sat-assuming (" ++ marker ++ "))"

/-- Reply to the newest of the calls made so far, or the reason of a failure. The answer only
matters for a check. -/
abbrev Backend := List Call → Except String Answer

structure Solver where
  backend : Backend
  /-- the newest first -/
  calls : List Call := []
  /-- names declared so far, whether or not the backend took them -/
  declared : List String := []
  markers : Nat := 0
  /-- text of the file that records the calls, if there is one -/
  transcript : Option String := none

/-- Computation on a solver; a failure keeps the solver as it is then. -/
abbrev SolverM := EStateM String Solver

namespace Solver

/-- Writes a line to the transcript. -/
def record (line : String) : SolverM Unit :=
  modify fun s => { s with transcript := s.transcript.map (· ++ line ++ "\n") }

/-- Sends a call to the backend. -/
def send (call : Call) : SolverM Answer := do
  record call.command
  modify fun s => { s with calls := call :: s.calls }
  let s ← get
  match s.backend s.calls with
  | .ok answer => return answer
  | .error reason => throw reason

/-- Declares a name once. -/
def declare (name : String) (call : Call) : SolverM Unit := do
  let s ← get
  if name ∈ s.declared then return
  set { s with declared := name :: s.declared }
  let _ ← send call

def declareInts : List String → SolverM Unit
  | [] => pure ()
  | name :: rest => do
    declare name (.declareInt name)
    declareInts rest

/-- Takes a new marker. -/
def newMarker : SolverM String := do
  modify fun s => { s with markers := s.markers + 1 }
  return "m" ++ toString (← get).markers

/-- Decides a formula over the integers `ints`. -/
def check (formula : Formula) (ints : List String) : SolverM Answer := do
  declareInts ints
  let marker ← newMarker
  declare marker (.declareBool marker)
  let _ ← send (.assert marker formula)
  let answer ← send (.check marker)
  record ("; " ++ answer.text)
  return answer

end Solver

end Refuter.Smt
