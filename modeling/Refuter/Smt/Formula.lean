import Refuter.Program.Operator

/-!
Formulas for an SMT solver and their SMT-LIB text.

Expressions range over unbounded integers; `div` and `mod` are those of SMT-LIB, so the remainder
is never negative. A formula is a conjunction of comparisons or a Boolean constant.
-/

namespace Refuter.Smt

/-! ## Text -/

/-- A negative number is written as the negation of its absolute value. -/
def intText (n : Int) : String :=
  if n < 0 then "(- " ++ toString n.natAbs ++ ")" else toString n.natAbs

def conjunctionText : List String → String
  | [] => "true"
  | [part] => part
  | parts => "(and " ++ " ".intercalate parts ++ ")"

def implicationText (lhs rhs : String) : String := "(=> " ++ lhs ++ " " ++ rhs ++ ")"

def negationText (formula : String) : String := "(not " ++ formula ++ ")"

def applicationText (operator lhs rhs : String) : String :=
  "(" ++ operator ++ " " ++ lhs ++ " " ++ rhs ++ ")"

/-! ## Expressions and formulas -/

/-- Integer expression. -/
inductive Expr where
  | num (n : Int)
  | sym (name : String)
  | neg (e : Expr)
  | add (lhs rhs : Expr)
  | sub (lhs rhs : Expr)
  | mul (lhs rhs : Expr)
  | div (lhs rhs : Expr)
  | mod (lhs rhs : Expr)
  /-- the second expression if the first is at least zero, else the third -/
  | ifNonneg (test yes no : Expr)
  deriving DecidableEq, Repr, Inhabited

def Expr.text : Expr → String
  | num n => intText n
  | sym name => name
  | neg e => "(- " ++ e.text ++ ")"
  | add l r => applicationText "+" l.text r.text
  | sub l r => applicationText "-" l.text r.text
  | mul l r => applicationText "*" l.text r.text
  | div l r => applicationText "div" l.text r.text
  | mod l r => applicationText "mod" l.text r.text
  | ifNonneg test yes no =>
    "(ite (>= " ++ test.text ++ " 0) " ++ yes.text ++ " " ++ no.text ++ ")"

/-- Name of a comparison in SMT-LIB. -/
def operatorText : CmpOp → String
  | .eq => "="
  | .ne => "distinct"
  | .lt => "<"
  | .le => "<="
  | .gt => ">"
  | .ge => ">="

structure Comparison where
  op : CmpOp
  lhs : Expr
  rhs : Expr
  deriving DecidableEq, Repr, Inhabited

def Comparison.text (c : Comparison) : String :=
  applicationText (operatorText c.op) c.lhs.text c.rhs.text

inductive Formula where
  /-- a Boolean constant -/
  | sym (name : String)
  | all (parts : List Comparison)
  deriving DecidableEq, Repr, Inhabited

def Formula.text : Formula → String
  | sym name => name
  | all parts => conjunctionText (parts.map Comparison.text)

end Refuter.Smt
