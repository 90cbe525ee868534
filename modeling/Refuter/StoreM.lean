import Refuter.Refutation
import Refuter.Session.Basic

/-!
Operations on a store.

An operation changes a store within a session and may halt. A halt keeps the store and the
session as they are at that point, so that what was numbered or reported before stays so.
-/

namespace Refuter

/-- A store and the session it belongs to. -/
structure Frame (σ : Type) where
  store : σ
  session : Session

abbrev StoreM (σ : Type) := EStateM Halt (Frame σ)

namespace StoreM

variable {σ τ α : Type}

def store : StoreM σ σ := return (← get).store

def setStore (s : σ) : StoreM σ Unit := modify fun f => { f with store := s }

def modifyStore (g : σ → σ) : StoreM σ Unit := modify fun f => { f with store := g f.store }

def options : StoreM σ Options := return (← get).session.options

/-- Runs a computation on the session. -/
def session (x : SessionM α) : StoreM σ α := fun f =>
  let (a, s) := x f.session
  .ok a { f with session := s }

def fresh (x : Fresh α) : StoreM σ α := session (Session.fresh x)

def debug (topic : Topic) (text : String) : StoreM σ Unit :=
  session (Session.note .debug topic text)

def halt (r : Refutation) : StoreM σ α := throw (.refuted r)

/-- Runs an operation on another store of the same session. A refutation is returned; a fault
goes on. -/
def attempt (x : StoreM τ α) (s : τ) : StoreM σ (Except Refutation (α × τ)) := fun f =>
  match x ⟨s, f.session⟩ with
  | .ok a g => .ok (.ok (a, g.store)) { f with session := g.session }
  | .error (.refuted r) g => .ok (.error r) { f with session := g.session }
  | .error (.fault b) g => .error (.fault b) { f with session := g.session }

/-- Runs an operation on a part of the store. -/
def onPart (part : σ → τ) (put : τ → σ → σ) (x : StoreM τ α) : StoreM σ α := fun f =>
  match x ⟨part f.store, f.session⟩ with
  | .ok a g => .ok a ⟨put g.store f.store, g.session⟩
  | .error h g => .error h ⟨put g.store f.store, g.session⟩

/-- Changes the store if the operation ends in a refutation. -/
def onRefuted (mark : σ → σ) (x : StoreM σ α) : StoreM σ α := fun f =>
  match x f with
  | .error (.refuted r) g => .error (.refuted r) { g with store := mark g.store }
  | result => result

/-- Whether an operation ends without a refutation. Its changes stay either way. -/
def succeeds (x : StoreM σ α) : StoreM σ Bool := fun f =>
  match x f with
  | .ok _ g => .ok true g
  | .error (.refuted _) g => .ok false g
  | .error (.fault b) g => .error (.fault b) g

/-- The parts of a call; any other instruction is a fault of the step. -/
def callOf (step : CallStep) (i : Instruction) : StoreM σ (Option Local × Method × List Operand) :=
  match i.call? with
  | some call => pure call
  | none => throw (.fault (.notACall step i))

/-- The branches that survived and the first refutation of the others. -/
structure Survivors (σ : Type) where
  live : List σ := []
  firstRefutation : Option Refutation := none

/-- Adds the outcome of one more branch. -/
def Survivors.add (s : Survivors σ) : Except Refutation (α × σ) → Survivors σ
  | .ok (_, b) => { s with live := s.live ++ [b] }
  | .error r => { s with firstRefutation := s.firstRefutation <|> some r }

/-- Runs each operation on a store of its own. -/
def attemptAll : List (StoreM τ α × τ) → Survivors τ → StoreM σ (Survivors τ)
  | [], s => pure s
  | (x, t) :: rest, s => do
    let outcome ← attempt x t
    attemptAll rest (s.add outcome)

/-- Goes on with the first surviving case and returns the others. Without any, the operation is
refuted as the first case was. -/
def commit (refute : Refutation → StoreM σ (List σ)) (cases : Survivors σ) : StoreM σ (List σ) :=
  match cases.live with
  | first :: rest => do
    setStore first
    return rest
  | [] => refute (cases.firstRefutation.getD .alreadyRefuted)

end StoreM

end Refuter
