import Refuter.Term.Basic

/-!
Substitution in terms.

Each kind replaces some access paths by a term. A path that hangs off the replaced one keeps
its remaining fields, which only works if the inserted term can carry them; otherwise the result
has no model.
-/

namespace Refuter

/-- Outcome of replacing parts of a value. -/
inductive Replacement (α : Type) where
  | unchanged
  | changed (result : α)
  /-- the result cannot be expressed -/
  | unsupported
  deriving DecidableEq

namespace Replacement

variable {α β : Type}

/-- The changed value, or `a` if it did not change. -/
def getD (a : α) : Replacement α → α
  | changed b => b
  | _ => a

/-- Replaces within both parts of a pair that `make` puts together. -/
def both (make : α → α → β) (l : α) (l' : Replacement α) (r : α) (r' : Replacement α) :
    Replacement β :=
  match l', r' with
  | unsupported, _ | _, unsupported => unsupported
  | unchanged, unchanged => unchanged
  | l', r' => changed (make (l'.getD l) (r'.getD r))

end Replacement

/-- The fields of `fields` after `start`, if the chain begins with `start`. -/
def fieldsAfter? : (start fields : List Field) → Option (List Field)
  | [], fields => some fields
  | _ :: _, [] => none
  | f :: start, g :: fields => if f = g then fieldsAfter? start fields else none

/-- The fields that `v` reads after `target`, if `v` is `target` or a read through it. -/
def AccessPath.restAfter? (v target : AccessPath) : Option (List Field) :=
  if v.base = target.base then fieldsAfter? target.fields v.fields else none

namespace Term

/-- Replaces every access path by `f`. -/
def replacePaths (f : AccessPath → Replacement Term) : Term → Replacement Term
  | const _ => .unchanged
  | var v => f v
  | bin l op r => Replacement.both (bin · op ·) l (l.replacePaths f) r (r.replacePaths f)

/-- `t` read through `rest`. -/
def extend (t : Term) (rest : List Field) : Replacement Term :=
  match rest, t with
  | [], t => .changed t
  | rest, var v => .changed (var { v with fields := v.fields ++ rest })
  | _, _ => .unsupported

/-- `t` read through `rest`, where a path that already reads a field carries no further one. -/
def extendBare (t : Term) (rest : List Field) : Replacement Term :=
  match rest, t with
  | [], t => .changed t
  | rest, var ⟨base, []⟩ => .changed (var ⟨base, rest⟩)
  | _, _ => .unsupported

/-- Replaces `target` by `insert`; chains are only carried over to a bare pointer. -/
def substitute (insert : Term) (target : AccessPath) : Term → Replacement Term :=
  replacePaths fun v => ((v.restAfter? target).map insert.extendBare).getD .unchanged

/-- Replaces `target` by `insert`, which may itself be a read: chains are concatenated. -/
def splice (insert : Term) (target : AccessPath) : Term → Replacement Term :=
  replacePaths fun v => ((v.restAfter? target).map insert.extend).getD .unchanged

/-- Replaces the read of `field` through `base` by `insert`. -/
def spliceRead (insert : Term) (base : Pointer) (field : Field) : Term → Replacement Term :=
  replacePaths fun v =>
    match v.fields with
    | f :: rest => if v.base = base && f = field then insert.extend rest else .unchanged
    | [] => .unchanged

end Term

end Refuter
