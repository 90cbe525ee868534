import Refuter.Smt.Formula

/-!
Arithmetic of terms.

The five operators of the program work on 32 bit integers: the exact result is wrapped, division
rounds toward zero. `diff` is the exact difference, whose sign is that of a three way comparison.
`ArithOp.apply` folds constants and `ArithOp.encode` writes the same rule for a solver.
-/

namespace Refuter

inductive ArithOp where
  | add | sub | mul | div | rem
  /-- exact difference -/
  | diff
  deriving DecidableEq, Repr, Inhabited

namespace ArithOp

/-- Bitwise operators and shifts have no model. -/
def ofBinary? : BinaryOp → Option ArithOp
  | .add => some add
  | .sub => some sub
  | .mul => some mul
  | .div => some div
  | .rem => some rem
  | .and | .or | .xor | .shl | .shr | .ushr => none

def text : ArithOp → String
  | add => "+"
  | sub => "-"
  | mul => "*"
  | div => "/"
  | rem => "%"
  | diff => "-"

/-- Number of values of a 32 bit integer. -/
def wordSize : Nat := 4294967296

/-- The value lies in the range of a signed 32 bit integer. -/
def isInt (n : Int) : Bool := -2147483648 ≤ n && n < 2147483648

/-- The value lies in the range of a signed 64 bit integer. -/
def isLong (n : Int) : Bool := -9223372036854775808 ≤ n && n < 9223372036854775808

/-- The result before wrapping; division and remainder round toward zero. -/
def exact : ArithOp → Int → Int → Int
  | add, l, r => l + r
  | sub, l, r => l - r
  | mul, l, r => l * r
  | div, l, r => l.tdiv r
  | rem, l, r => l.tmod r
  | diff, l, r => l - r

def isDivision : ArithOp → Bool
  | div | rem => true
  | _ => false

/-- Folds two constants. There is no result for a zero divisor, for an operand that is not a
32 bit integer, or for an exact difference beyond 64 bits. -/
def apply (op : ArithOp) (lhs rhs : Int64) : Option Int64 :=
  let l := lhs.toInt
  let r := rhs.toInt
  if op = diff then
    if isLong (l - r) then some (.ofInt (l - r)) else none
  else if !isInt l || !isInt r then none
  else if r = 0 && op.isDivision then none
  else some (.ofInt ((op.exact l r).bmod wordSize))

/-! ## Encoding -/

/-- Reduces an expression to the range of a signed 32 bit integer. -/
def wrapped (e : Smt.Expr) : Smt.Expr :=
  .sub (.mod (.add e (.num 2147483648)) (.num wordSize)) (.num 2147483648)

/-- Division toward zero: the dividend is made non-negative first. -/
def truncated (l r : Smt.Expr) : Smt.Expr := .ifNonneg l (.div l r) (.neg (.div (.neg l) r))

def encode (op : ArithOp) (l r : Smt.Expr) : Smt.Expr :=
  match op with
  | diff => .sub l r
  | add => wrapped (.add l r)
  | sub => wrapped (.sub l r)
  | mul => wrapped (.mul l r)
  | div => wrapped (truncated l r)
  | rem => .sub l (.mul r (truncated l r))

end ArithOp

end Refuter
