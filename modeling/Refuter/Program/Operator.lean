/-!
Comparison and arithmetic operators of the program text, and its numeric types.
-/

namespace Refuter

/-- Comparison of two integers. -/
inductive CmpOp where
  | eq | ne | lt | le | gt | ge
  deriving DecidableEq, Repr, Inhabited

namespace CmpOp

/-- The operator that holds exactly when this one does not. -/
def negate : CmpOp → CmpOp
  | eq => ne
  | ne => eq
  | lt => ge
  | le => gt
  | gt => le
  | ge => lt

def apply : CmpOp → Int → Int → Bool
  | eq, a, b => a = b
  | ne, a, b => a ≠ b
  | lt, a, b => a < b
  | le, a, b => a ≤ b
  | gt, a, b => a > b
  | ge, a, b => a ≥ b

def text : CmpOp → String
  | eq => "=="
  | ne => "!="
  | lt => "<"
  | le => "<="
  | gt => ">"
  | ge => ">="

def all : List CmpOp := [eq, ne, lt, le, gt, ge]

end CmpOp

/-- Binary operator of an instruction. -/
inductive BinaryOp where
  | add | sub | mul | div | rem | and | or | xor | shl | shr | ushr
  deriving DecidableEq, Repr, Inhabited

namespace BinaryOp

def text : BinaryOp → String
  | add => "+"
  | sub => "-"
  | mul => "*"
  | div => "/"
  | rem => "%"
  | and => "&"
  | or => "|"
  | xor => "^"
  | shl => "<<"
  | shr => ">>"
  | ushr => ">>>"

def all : List BinaryOp := [add, sub, mul, div, rem, and, or, xor, shl, shr, ushr]

end BinaryOp

/-- Unary operator of an instruction. -/
inductive UnaryOp where
  | neg
  deriving DecidableEq, Repr, Inhabited

namespace UnaryOp

def text : UnaryOp → String
  | neg => "neg"

def all : List UnaryOp := [neg]

end UnaryOp

/-- Numeric type an instruction works on. -/
inductive NumType where
  | int | long | float | double
  deriving DecidableEq, Repr, Inhabited

namespace NumType

def text : NumType → String
  | int => "int"
  | long => "long"
  | float => "float"
  | double => "double"

def all : List NumType := [int, long, float, double]

def isIntegral : NumType → Bool
  | int | long => true
  | float | double => false

end NumType

end Refuter
