import Refuter.Term.Substitution

/-!
Constraints: comparisons of two terms.

A constraint keeps its number through every substitution, so that a refutation can name the
constraints that were added. A constraint that became constant is decided on the spot.
-/

namespace Refuter

structure ConstraintId where
  number : Nat
  deriving DecidableEq, Repr, Inhabited

def ConstraintId.text (id : ConstraintId) : String := "c" ++ toString id.number

structure Constraint where
  lhs : Term
  op : CmpOp
  rhs : Term
  id : ConstraintId
  deriving DecidableEq, Inhabited

/-- Outcome of changing or deciding a constraint. -/
inductive Settled where
  | unchanged
  | changed (c : Constraint)
  /-- it became constant -/
  | resolved (value : Bool)
  /-- it has no model any more -/
  | dropped
  deriving DecidableEq

namespace Constraint

def text (c : Constraint) : String := c.lhs.text ++ " " ++ c.op.text ++ " " ++ c.rhs.text

/-- The same comparison, whatever the numbers. -/
def sameAs (c d : Constraint) : Bool := c.op = d.op && c.lhs = d.lhs && c.rhs = d.rhs

/-- A literal compared for equality with a reference to allocated objects. -/
def isLiteralTest (c : Constraint) : Bool :=
  (c.op = .eq || c.op = .ne) &&
    (c.lhs.isConstant && c.rhs.isSite || c.lhs.isSite && c.rhs.isConstant)

/-- The truth value does not hang on any variable. -/
def isConstant (c : Constraint) : Bool :=
  c.lhs.isConstant && c.rhs.isConstant || c.isLiteralTest

/-- Truth value of a constant constraint, where folding succeeds. An allocated object is never
null and never equal to a literal. -/
def evaluate (c : Constraint) : Option Bool :=
  if c.lhs.isConstant && c.rhs.isConstant then do
    let l ← c.lhs.evaluate
    let r ← c.rhs.evaluate
    return c.op.apply l.toInt r.toInt
  else if c.isLiteralTest then some (c.op = .ne)
  else none

/-- Decides a constant constraint. -/
def settle (c : Constraint) : Settled :=
  if c.isConstant then
    match c.evaluate with
    | some value => .resolved value
    | none => .dropped
  else .changed c

/-- Replaces within both sides and decides the result. -/
def replace (f : Term → Replacement Term) (c : Constraint) : Settled :=
  match Replacement.both ({ c with lhs := ·, rhs := · }) c.lhs (f c.lhs) c.rhs (f c.rhs) with
  | .unsupported => .dropped
  | .unchanged => .unchanged
  | .changed d => d.settle

def negate (c : Constraint) : Constraint := { c with op := c.op.negate }

def paths (c : Constraint) : List AccessPath := c.lhs.paths ++ c.rhs.paths

def mentions (c : Constraint) (p : Pointer) : Bool := c.lhs.mentions p || c.rhs.mentions p

def roots (c : Constraint) : SortedSet Pointer := .ofList (c.paths.map AccessPath.base)

def encode (c : Constraint) : Smt.Comparison := ⟨c.op, c.lhs.encode, c.rhs.encode⟩

end Constraint

end Refuter
