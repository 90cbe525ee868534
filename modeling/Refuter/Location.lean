import Refuter.Program.Field

/-!
Locations: the identities that the two stores talk about.
-/

namespace Refuter

/-- One identity at run time, or a name for several objects of one allocation site. -/
inductive Location where
  | slot (method : MethodId) (l : Local)
  /-- the value a method returns -/
  | result (method : MethodId)
  /-- a static field, which is a root like a local -/
  | global (field : Field)
  /-- the objects created at a site -/
  | site (s : AllocSite)
  /-- name of an array index -/
  | index (n : UInt64)
  deriving DecidableEq, Repr, Inhabited

namespace Location

/-- Only an allocation site stands for more than one object. -/
def isUnique : Location → Bool
  | site _ => false
  | _ => true

def isSite : Location → Bool
  | site _ => true
  | _ => false

/-- The method whose frame holds the location. -/
def method? : Location → Option MethodId
  | slot m _ => some m
  | result m => some m
  | _ => none

/-- Frame locations are rebound across calls. -/
def isFrame (x : Location) : Bool := x.method?.isSome

def text : Location → String
  | slot m l => "v" ++ toString l.toNat ++ "@" ++ m.text
  | result m => "ret@" ++ m.text
  | global f => "static " ++ f.text
  | site s => s.text
  | index n => "idx" ++ toString n.toNat

/-! ## Order -/

/-- Place of the kind in the order. -/
def rank : Location → Nat
  | slot .. => 0
  | result _ => 1
  | global _ => 2
  | site _ => 3
  | index _ => 4

def slot? : Location → Option Local
  | slot _ l => some l
  | _ => none

def field? : Location → Option Field
  | global f => some f
  | _ => none

def site? : Location → Option AllocSite
  | site s => some s
  | _ => none

def index? : Location → Option UInt64
  | index n => some n
  | _ => none

/-- By kind, then by the parts of that kind. -/
def cmp : Location → Location → Ordering :=
  compareLex (compareOn rank) <| compareLex (compareOn method?) <| compareLex (compareOn slot?) <|
    compareLex (compareOn field?) <| compareLex (compareOn site?) (compareOn index?)

instance : Ord Location := ⟨cmp⟩

instance : Std.TransOrd Location :=
  inferInstanceAs (Std.TransCmp (compareLex (compareOn rank) <| compareLex (compareOn method?) <|
    compareLex (compareOn slot?) <| compareLex (compareOn field?) <|
    compareLex (compareOn site?) (compareOn index?)))

instance : Std.LawfulEqOrd Location := lawfulEqCmp_of_iff fun a b => by
  change cmp a b = .eq ↔ a = b
  simp only [cmp, compareLex_eq_eq, compareOn_eq_eq]
  cases a <;> cases b <;> simp [rank, method?, slot?, field?, site?, index?]

end Location

end Refuter
