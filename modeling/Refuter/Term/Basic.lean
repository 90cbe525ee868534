import Refuter.Pointer
import Refuter.Term.Arith

/-!
Terms: constants, access paths and arithmetic over them.

An access path is a pointer read through a chain of fields. A solver knows a path by its name,
in which a choice is written by its number alone.
-/

namespace Refuter

/-- A pointer, read through a chain of fields. -/
structure AccessPath where
  base : Pointer
  fields : List Field := []
  deriving DecidableEq, Inhabited

namespace AccessPath

def text (v : AccessPath) : String := v.base.text ++ String.join (v.fields.map ("." ++ ·.text))

/-- The first field read through the base. -/
def first? (v : AccessPath) : Option Field := v.fields.head?

/-- A bare reference to allocated objects. -/
def isSite (v : AccessPath) : Bool := v.fields.isEmpty && v.base.isSite

/-- Characters that end a quoted symbol are replaced. -/
def symbolChar (c : Char) : Char := if c = '|' || c = '\\' then '_' else c

/-- Name of the base within a symbol. -/
def baseName : Pointer → String
  | .known x => x.text
  | .choice id _ => "_sym" ++ toString id

/-- Symbol that a solver knows the path by. -/
def symbol (v : AccessPath) : String :=
  "|" ++ (baseName v.base ++ String.join (v.fields.map ("." ++ ·.text))).map symbolChar ++ "|"

end AccessPath

/-- Scalar expression. -/
inductive Term where
  | const (value : Int64)
  | var (v : AccessPath)
  | bin (lhs : Term) (op : ArithOp) (rhs : Term)
  deriving DecidableEq, Inhabited

namespace Term

/-- A pointer on its own. -/
def bare (p : Pointer) : Term := var ⟨p, []⟩

/-- One field of a pointer. -/
def read (p : Pointer) (f : Field) : Term := var ⟨p, [f]⟩

def text : Term → String
  | const v => toString v.toInt
  | var v => v.text
  | bin l op r => "(" ++ l.text ++ " " ++ op.text ++ " " ++ r.text ++ ")"

/-- Value of a term without variables, where folding succeeds. -/
def evaluate : Term → Option Int64
  | const v => some v
  | var _ => none
  | bin l op r => do op.apply (← l.evaluate) (← r.evaluate)

def isConstant : Term → Bool
  | const _ => true
  | var _ => false
  | bin l _ r => l.isConstant && r.isConstant

/-- A bare reference to allocated objects, which is never null. -/
def isSite : Term → Bool
  | var v => v.isSite
  | _ => false

/-- The access paths of the term from left to right. -/
def paths : Term → List AccessPath
  | const _ => []
  | var v => [v]
  | bin l _ r => l.paths ++ r.paths

def roots (t : Term) : SortedSet Pointer := .ofList (t.paths.map AccessPath.base)

def mentions (t : Term) (p : Pointer) : Bool := t.paths.any (·.base = p)

/-- The term for a solver. -/
def encode : Term → Smt.Expr
  | const v => .num v.toInt
  | var v => .sym v.symbol
  | bin l op r => op.encode l.encode r.encode

end Term

end Refuter
