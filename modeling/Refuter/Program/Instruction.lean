import Refuter.Program.Field
import Refuter.Program.Operator

/-!
Instructions as a walk meets them: one at a time, with every conditional already resolved to the
direction of the explored path.
-/

namespace Refuter

/-- Value an instruction reads. -/
inductive Operand where
  | slot (l : Local)
  | const (value : Int64)
  | null
  deriving DecidableEq, Repr, Inhabited

namespace Operand

def local? : Operand → Option Local
  | slot l => some l
  | _ => none

/-- The literal value; null counts as zero. -/
def const? : Operand → Option Int64
  | slot _ => none
  | const v => some v
  | null => some 0

end Operand

/-- Edge of a switch that the path takes. -/
inductive SwitchLabel where
  /-- taken for any of these values -/
  | cases (values : List Int64)
  | default
  deriving DecidableEq, Repr, Inhabited

inductive MethodKind where
  | normal | constructor | classInit
  deriving DecidableEq, Repr, Inhabited

namespace MethodKind

def text : MethodKind → String
  | normal => "normal"
  | constructor => "constructor"
  | classInit => "class_init"

def all : List MethodKind := [normal, constructor, classInit]

end MethodKind

/-- Target of a call. -/
structure Method where
  id : MethodId
  className : String
  name : String
  /-- formals in order, the receiver first -/
  params : List Local := []
  kind : MethodKind := .normal
  /-- fields the method may write, for a call that is not explored -/
  modifies : List Field := []
  deriving DecidableEq, Repr, Inhabited

inductive Instruction where
  | assign (target : Local) (value : Operand)
  | checkCast (target : Local) (value : Operand)
  | new (target : Local) (site : AllocSite)
  | newArray (target : Local) (site : AllocSite) (length : Operand)
  | load (target base : Local) (field : Field)
  | staticLoad (target : Local) (field : Field)
  | store (base : Local) (field : Field) (value : Operand)
  | staticStore (field : Field) (value : Operand)
  | arrayLoad (target array : Local) (index : Operand)
  | arrayStore (array : Local) (index value : Operand)
  | arrayLength (target array : Local)
  | binary (target : Local) (op : BinaryOp) (lhs rhs : Operand) (type : NumType)
  | unary (target : Local) (op : UnaryOp) (value : Operand) (type : NumType)
  /-- three way comparison, with result -1, 0 or 1 -/
  | compare (target : Local) (lhs rhs : Operand) (type : NumType)
  | conversion (target : Local) (value : Operand) (source dest : NumType)
  | instanceOf (target : Local) (value : Operand)
  /-- class literal or other runtime metadata -/
  | metadata (target : Local)
  /-- `taken` is the direction of the explored path -/
  | branch (op : CmpOp) (lhs rhs : Operand) (taken : Bool)
  /-- `cases` are all labels of the switch but the default -/
  | switch (scrutinee : Operand) (cases : List Int64) (label : SwitchLabel)
  | invoke (target : Option Local) (callee : Method) (args : List Operand)
  | ret (value : Option Operand)
  /-- anything without an effect on scalars or the heap -/
  | nop
  deriving DecidableEq, Repr, Inhabited

namespace Instruction

/-- The local that the instruction defines. -/
def target? : Instruction → Option Local
  | assign d _ | checkCast d _ | new d _ | newArray d _ _ | load d _ _ | staticLoad d _
  | arrayLoad d _ _ | arrayLength d _ | binary d _ _ _ _ | unary d _ _ _ | compare d _ _ _
  | conversion d _ _ _ | instanceOf d _ | metadata d => some d
  | invoke d _ _ => d
  | store .. | staticStore .. | arrayStore .. | branch .. | switch .. | ret _ | nop => none

/-- Target, callee and arguments of a call. -/
def call? : Instruction → Option (Option Local × Method × List Operand)
  | invoke target callee args => some (target, callee, args)
  | _ => none

/-- Name of the instruction in messages. -/
def name : Instruction → String
  | assign .. => "Assign"
  | checkCast .. => "CheckCast"
  | new .. => "New"
  | newArray .. => "NewArray"
  | load .. => "Load"
  | staticLoad .. => "StaticLoad"
  | store .. => "Store"
  | staticStore .. => "StaticStore"
  | arrayLoad .. => "ArrayLoad"
  | arrayStore .. => "ArrayStore"
  | arrayLength .. => "ArrayLength"
  | binary .. => "Binary"
  | unary .. => "Unary"
  | compare .. => "Compare"
  | conversion .. => "Conversion"
  | instanceOf .. => "InstanceOf"
  | metadata _ => "Metadata"
  | branch .. => "Branch"
  | switch .. => "Switch"
  | invoke .. => "Invoke"
  | ret _ => "Return"
  | nop => "Nop"

end Instruction

/-- Where the walk is. -/
structure Site where
  method : MethodId
  /-- inside a loop body, where discharged edges are not recorded -/
  inLoop : Bool := false
  deriving DecidableEq, Repr, Inhabited

end Refuter
