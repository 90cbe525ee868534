import Refuter.Order

/-!
Names of a program: methods, locals, fields and allocation sites.

Every kind of name has a text and a total order. The order compares the kind first and then the
parts from left to right; texts compare by code point, which is the order of their UTF-8 bytes.
-/

namespace Refuter

/-- Number of a method. -/
structure MethodId where
  number : UInt32
  deriving DecidableEq, Repr, Inhabited

namespace MethodId

def text (m : MethodId) : String := "m" ++ toString m.number.toNat

instance : Ord MethodId where
  compare := compareOn number

instance : Std.TransOrd MethodId := inferInstanceAs (Std.TransCmp (compareOn number))

instance : Std.LawfulEqOrd MethodId := lawfulEqCmp_of_iff fun m n => by
  cases m; cases n
  exact compareOn_eq_eq.trans (by simp)

end MethodId

/-- Number of a local variable within its method. -/
abbrev Local := UInt32

/-- What a field chain can read. -/
inductive Field where
  | named (className name : String)
  /-- the contents of an array, whatever the index; heap edges use it -/
  | contents
  /-- one read of an array element, under the index name it was read with -/
  | element (index : UInt64)
  | length
  deriving DecidableEq, Repr, Inhabited

namespace Field

/-- Pseudo fields occur in path constraints only and never label a heap edge. -/
def isPseudo : Field → Bool
  | named .. | contents => false
  | element _ | length => true

def isElement : Field → Bool
  | element _ => true
  | _ => false

/-- The index name of an element read. -/
def index? : Field → Option UInt64
  | element n => some n
  | _ => none

def declaringClass? : Field → Option String
  | named className _ => some className
  | _ => none

def text : Field → String
  | named className name => className ++ "::" ++ name
  | contents => "@contents"
  | element n => "@[idx" ++ toString n.toNat ++ "]"
  | length => "@length"

/-- Place of the field's kind in the order. -/
def rank : Field → Nat
  | named .. => 0
  | contents => 1
  | element _ => 2
  | length => 3

def name? : Field → Option String
  | named _ name => some name
  | _ => none

/-- By kind, then by class, name and index. -/
def cmp : Field → Field → Ordering :=
  compareLex (compareOn rank) <| compareLex (compareOn declaringClass?) <|
    compareLex (compareOn name?) (compareOn index?)

instance : Ord Field := ⟨cmp⟩

instance : Std.TransOrd Field :=
  inferInstanceAs (Std.TransCmp (compareLex (compareOn rank) <|
    compareLex (compareOn declaringClass?) <| compareLex (compareOn name?) (compareOn index?)))

instance : Std.LawfulEqOrd Field := lawfulEqCmp_of_iff fun a b => by
  change cmp a b = .eq ↔ a = b
  simp only [cmp, compareLex_eq_eq, compareOn_eq_eq]
  cases a <;> cases b <;> simp [rank, declaringClass?, name?, index?]

end Field

/-- A place in the program that creates objects. -/
structure AllocSite where
  id : UInt32
  className : String
  method : MethodId
  deriving DecidableEq, Repr, Inhabited

namespace AllocSite

def text (s : AllocSite) : String := "new " ++ s.className ++ "#" ++ toString s.id.toNat

/-- By number, then by class and method. -/
def cmp : AllocSite → AllocSite → Ordering :=
  compareLex (compareOn id) <| compareLex (compareOn className) (compareOn method)

instance : Ord AllocSite := ⟨cmp⟩

instance : Std.TransOrd AllocSite :=
  inferInstanceAs (Std.TransCmp
    (compareLex (compareOn id) <| compareLex (compareOn className) (compareOn method)))

instance : Std.LawfulEqOrd AllocSite := lawfulEqCmp_of_iff fun a b => by
  change cmp a b = .eq ↔ a = b
  simp only [cmp, compareLex_eq_eq, compareOn_eq_eq]
  cases a; cases b; simp

end AllocSite

end Refuter
