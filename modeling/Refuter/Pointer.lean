import Refuter.Fresh
import Refuter.Location
import Refuter.SortedSet

/-!
Pointers: a reference that is either known or one of a finite set of candidates.

Two choices with the same candidates are still different unknowns, so a choice carries a number.
`Pointer.merge` is the meet of two pointers and `Pointer.narrow` the meet with a set of locations.
-/

namespace Refuter

abbrev Locations := SortedSet Location

inductive Pointer where
  | known (x : Location)
  /-- one of the candidates, always the same one for the same number -/
  | choice (id : Nat) (candidates : Locations)
  deriving DecidableEq

namespace Pointer

instance : Inhabited Pointer := ⟨known default⟩

def slot (m : MethodId) (l : Local) : Pointer := known (.slot m l)

def result (m : MethodId) : Pointer := known (.result m)

def global (f : Field) : Pointer := known (.global f)

def site (s : AllocSite) : Pointer := known (.site s)

def isChoice : Pointer → Bool
  | known _ => false
  | choice .. => true

def known? : Pointer → Option Location
  | known x => some x
  | choice .. => none

def candidates : Pointer → Locations
  | known x => .singleton x
  | choice _ cs => cs

/-- The pointer can be `x`. -/
def contains (p : Pointer) (x : Location) : Bool := x ∈ p.candidates

/-- Roots and index names are uniquely identified; a choice never is. -/
def isUnique : Pointer → Bool
  | known x => x.isUnique
  | choice .. => false

def isFrame : Pointer → Bool
  | known x => x.isFrame
  | choice .. => false

/-- Every candidate is an allocation site, so the pointer is never null. -/
def isSite (p : Pointer) : Bool := p.candidates.toList.all Location.isSite

def method? (p : Pointer) : Option MethodId := p.known?.bind Location.method?

/-- The static field a known pointer stands for. -/
def global? : Pointer → Option Field
  | known (.global f) => some f
  | _ => none

def text : Pointer → String
  | known x => x.text
  | choice id cs =>
    "_sym" ++ toString id ++ "\x7b" ++ ", ".intercalate (cs.toList.map Location.text) ++ "\x7d"

/-! ## Order -/

/-- Number of a choice; all known pointers share one. -/
def id? : Pointer → Option Nat
  | known _ => none
  | choice id _ => some id

/-- Known pointers come first, choices by number; then the candidates decide. -/
def cmp : Pointer → Pointer → Ordering := compareLex (compareOn id?) (compareOn candidates)

instance : Ord Pointer := ⟨cmp⟩

instance : Std.TransOrd Pointer :=
  inferInstanceAs (Std.TransCmp (compareLex (compareOn id?) (compareOn candidates)))

instance : Std.LawfulEqOrd Pointer := lawfulEqCmp_of_iff fun a b => by
  change cmp a b = .eq ↔ a = b
  simp only [cmp, compareLex_eq_eq, compareOn_eq_eq]
  cases a <;> cases b <;> simp [id?, candidates, SortedSet.singleton]

/-! ## Building, merging and narrowing -/

/-- Pointer over a set of candidates: none for the empty set, known for a single candidate, and a
new choice otherwise. -/
def ofCandidates (cs : Locations) : Fresh (Option Pointer) :=
  match cs.toList with
  | [] => pure none
  | [x] => pure (some (known x))
  | _ => return some (choice (← Fresh.next) cs)

/-- What becomes of a set of candidates and of the next number. -/
theorem ofCandidates_cases (cs : Locations) (n : Nat) :
    (cs.isEmpty = true ∧ ofCandidates cs n = (none, n)) ∨
    (∃ x, cs = .singleton x ∧ ofCandidates cs n = (some (known x), n)) ∨
    (2 ≤ cs.size ∧ ofCandidates cs n = (some (choice n cs), n + 1)) := by
  unfold ofCandidates SortedSet.isEmpty SortedSet.size
  match hl : cs.toList with
  | [] => exact .inl ⟨rfl, rfl⟩
  | [x] => exact .inr (.inl ⟨x, SortedSet.ext_toList hl, rfl⟩)
  | _ :: _ :: _ => exact .inr (.inr ⟨Nat.le_add_left _ _, rfl⟩)

/-- The two pointers may denote the same thing. -/
def overlaps : Pointer → Pointer → Bool
  | choice i cs, choice j ds => i = j || cs.toList.any (· ∈ ds)
  | known x, p => p.contains x
  | p, known x => p.contains x

/-- The pointer that both can be at once, or none if they are disjoint. Without `narrowing` two
choices are never intersected: the one with more candidates stays, which only loses precision. -/
def merge (narrowing : Bool) (p q : Pointer) : Fresh (Option Pointer) :=
  if p = q then pure (some p) else
  match p, q with
  | known x, q => pure (if q.contains x then some (known x) else none)
  | p, known y => pure (if p.contains y then some (known y) else none)
  | choice i cs, choice j ds =>
    let both := cs.inter ds
    if both.isEmpty then pure none
    else if !narrowing then pure (some (if cs.size ≥ ds.size then choice i cs else choice j ds))
    else if both.size = cs.size then pure (some (choice i cs))
    else if both.size = ds.size then pure (some (choice j ds))
    else ofCandidates both

/-- What is left of a pointer after its candidates were restricted. -/
inductive Narrowed where
  | same
  | empty
  | to (p : Pointer)
  deriving DecidableEq

/-- Restricts the candidates to `allowed`. -/
def narrow (p : Pointer) (allowed : Locations) : Fresh Narrowed :=
  match p with
  | known x => pure (if x ∈ allowed then .same else .empty)
  | choice _ cs =>
    let both := cs.inter allowed
    if both.isEmpty then pure .empty
    else if both.size = cs.size then pure .same
    else do
      match ← ofCandidates both with
      | some p => pure (.to p)
      | none => pure .empty

/-- A choice has at least two candidates. -/
def isWellFormed : Pointer → Bool
  | known _ => true
  | choice _ cs => 2 ≤ cs.size

end Pointer

end Refuter
