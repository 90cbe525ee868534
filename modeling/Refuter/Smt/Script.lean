import Refuter.Smt.Solver

/-!
A backend that follows a script.

The script lists what is to happen from the front. A failure at the front waits for a call of its
kind; a check always takes the front, and an exhausted script answers that a formula holds.
-/

namespace Refuter.Smt.Script

inductive Entry where
  | failInt | failBool | failAssert | failCheck | unsat | unknown | sat
  deriving DecidableEq, Repr, Inhabited

/-- The failure that stops a call. -/
def Entry.stops : Entry → Call → Bool
  | failInt, .declareInt _ => true
  | failBool, .declareBool _ => true
  | failAssert, .assert .. => true
  | failCheck, .check _ => true
  | _, _ => false

def isCheck : Call → Bool
  | .check _ => true
  | _ => false

/-- What is left of a script after a call. -/
def rest (script : List Entry) (call : Call) : List Entry :=
  match script with
  | [] => []
  | entry :: later => if entry.stops call || isCheck call then later else script

def reply (script : List Entry) (call : Call) : Except String Answer :=
  match script with
  | [] => .ok .sat
  | entry :: _ =>
    if entry.stops call then .error "broken pipe"
    else match entry with
      | .unsat => .ok .unsat
      | .unknown => .ok .unknown
      | _ => .ok .sat

/-- What is left of a script after the calls, the newest first. -/
def after (script : List Entry) : List Call → List Entry
  | [] => script
  | call :: earlier => rest (after script earlier) call

def backend (script : List Entry) : Backend
  | [] => .ok .sat
  | call :: earlier => reply (after script earlier) call

end Refuter.Smt.Script
