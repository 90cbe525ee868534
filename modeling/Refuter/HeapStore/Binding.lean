import Refuter.HeapStore.Basic

/-!
How a rule can discharge an owed edge.

The produced edge of the rule and the owed edge are merged end by end. The rule fits if its
premises on roots then agree with what is already bound.
-/

namespace Refuter

/-- A way to discharge an owed edge: what its ends become. -/
structure Binding where
  obligation : Edge
  source : Pointer
  sink : Pointer
  deriving DecidableEq, Inhabited

namespace Binding

/-- The rule with its produced edge replaced by the merged one. -/
def apply (b : Binding) (r : Rule) : Rule :=
  (r.rename r.shown.source b.source).rename r.shown.sink b.sink

/-- An edge after the obligation's ends were replaced by the merged ones. -/
def rebind (b : Binding) (e : Edge) : Edge :=
  (e.rename b.obligation.source b.source).rename b.obligation.sink b.sink

/-- Edges that are bound besides the obligation. -/
def bound (b : Binding) (s : HeapStore) : List Edge :=
  (s.owed.toList.filter (· ≠ b.obligation) ++ s.produced).map b.rebind

/-- Premises on roots are compatible with all that is bound on them. -/
def premisesAgree (narrowing : Bool) (s : HeapStore) (r : Rule) (b : Binding) : Fresh Bool :=
  ((b.apply r).premises.filter (·.source.isUnique)).allM fun premise =>
    ((b.bound s).filter fun e => e.source = premise.source && e.field = premise.field).allM
      fun e => return (← Pointer.merge narrowing e.sink premise.sink).isSome

end Binding

/-- How a rule meets one owed edge. -/
inductive Fit where
  | apart
  /-- they disagree on a root -/
  | clash
  | fits (b : Binding)
  deriving DecidableEq

namespace Fit

def binding? : Fit → Option Binding
  | fits b => some b
  | _ => none

def isClash : Fit → Bool
  | clash => true
  | _ => false

/-- Meets a rule with an owed edge. -/
def ofEdge (narrowing : Bool) (s : HeapStore) (r : Rule) (o : Edge) : Fresh Fit := do
  if o.field ≠ r.shown.field then return apart
  let some source ← Pointer.merge narrowing o.source r.shown.source | return apart
  let some sink ← Pointer.merge narrowing o.sink r.shown.sink
    | return if source.isUnique then clash else apart
  let b : Binding := ⟨o, source, sink⟩
  return if ← b.premisesAgree narrowing s r then fits b else clash

end Fit

/-- How a rule meets a store. -/
inductive Classification where
  | consistent (bindings : List Binding)
  | inconsistent
  | inapplicable
  deriving DecidableEq

namespace Classification

/-- The root that the rule produces was already produced with something else. -/
def isProducedOtherwise (narrowing : Bool) (s : HeapStore) (r : Rule) : Fresh Bool :=
  if r.shown.source.isUnique then
    (s.produced.filter fun e => e.field = r.shown.field && e.source = r.shown.source).anyM
      fun e => return (← Pointer.merge narrowing e.sink r.shown.sink).isNone
  else pure false

def ofRule (narrowing : Bool) (s : HeapStore) (r : Rule) : Fresh Classification := do
  if ← isProducedOtherwise narrowing s r then return inconsistent
  let fits ← s.owed.toList.mapM (Fit.ofEdge narrowing s r)
  match fits.filterMap Fit.binding? with
  | [] => return if fits.any Fit.isClash then inconsistent else inapplicable
  | bindings => return consistent bindings

end Classification

end Refuter
