import Refuter.Heap.Graph
import Refuter.StoreM

/-!
The path store: a conjunction of constraints on values that the explored path still has to
produce.

The pointers it talks about, the symbols a solver needs and the formula it is sent are read off
the constraints once, whenever these are put, and kept with them.
-/

namespace Refuter

/-- An allocated object is not null. -/
def notNull (symbol : String) : Smt.Comparison := ⟨.ne, .sym symbol, .num 0⟩

/-- What is kept of some constraints beside themselves. -/
structure Summary where
  /-- the pointers they read -/
  pointers : SortedSet Pointer
  /-- the symbols of their paths -/
  symbols : SortedSet String
  /-- the conjunction for a solver -/
  encoding : Smt.Formula
  deriving DecidableEq

namespace Summary

/-- What is seen of the paths on the way. -/
structure Seen where
  pointers : SortedSet Pointer := ∅
  symbols : SortedSet String := ∅
  /-- symbols of the bare references to allocated objects -/
  sites : SortedSet String := ∅

def Seen.add (seen : Seen) (v : AccessPath) : Seen where
  pointers := seen.pointers.insert v.base
  symbols := seen.symbols.insert v.symbol
  sites := if v.isSite then seen.sites.insert v.symbol else seen.sites

variable {seen : Seen} {vs : List AccessPath}

theorem Seen.mem_pointers_foldl {p : Pointer} :
    p ∈ (vs.foldl add seen).pointers ↔ p ∈ seen.pointers ∨ ∃ v ∈ vs, v.base = p := by
  induction vs generalizing seen with
  | nil => simp
  | cons v rest ih =>
    rw [List.foldl_cons, ih]
    simp only [add, SortedSet.mem_insert, List.mem_cons]
    grind

theorem Seen.mem_symbols_foldl {name : String} :
    name ∈ (vs.foldl add seen).symbols ↔ name ∈ seen.symbols ∨ ∃ v ∈ vs, v.symbol = name := by
  induction vs generalizing seen with
  | nil => simp
  | cons v rest ih =>
    rw [List.foldl_cons, ih]
    simp only [add, SortedSet.mem_insert, List.mem_cons]
    grind

theorem Seen.mem_sites_foldl {name : String} :
    name ∈ (vs.foldl add seen).sites ↔
      name ∈ seen.sites ∨ ∃ v ∈ vs, v.isSite = true ∧ v.symbol = name := by
  induction vs generalizing seen with
  | nil => simp
  | cons v rest ih =>
    rw [List.foldl_cons, ih]
    simp only [add, List.mem_cons]
    -- only a bare reference to an allocated object adds its symbol here
    split <;> grind [SortedSet.mem_insert]

/-- Reads the paths of all constraints in turn. The formula holds the constraints, and that no
allocated object is null. -/
def of (cs : List Constraint) : Summary :=
  let seen := (cs.flatMap Constraint.paths).foldl Seen.add {}
  { pointers := seen.pointers
    symbols := seen.symbols
    encoding := .all (cs.map Constraint.encode ++ seen.sites.toList.map notNull) }

variable {cs : List Constraint}

theorem mem_pointers_of {p : Pointer} :
    p ∈ (of cs).pointers ↔ ∃ v ∈ cs.flatMap Constraint.paths, v.base = p := by
  simp [of, Seen.mem_pointers_foldl]

theorem mem_symbols_of {name : String} :
    name ∈ (of cs).symbols ↔ ∃ v ∈ cs.flatMap Constraint.paths, v.symbol = name := by
  simp [of, Seen.mem_symbols_foldl]

/-- The symbols of the bare references are listed once each. -/
theorem encoding_of {sites : SortedSet String}
    (h : ∀ name, name ∈ sites ↔
      ∃ v ∈ cs.flatMap Constraint.paths, v.isSite = true ∧ v.symbol = name) :
    (of cs).encoding = .all (cs.map Constraint.encode ++ sites.toList.map notNull) := by
  have hsites : ((cs.flatMap Constraint.paths).foldl Seen.add {}).sites = sites :=
    SortedSet.ext_mem fun name => by simp [Seen.mem_sites_foldl, h]
  simp [of, hsites]

end Summary

structure PathStore where
  constraints : List Constraint := []
  /-- this very conjunction was sent to the solver -/
  checked : Bool := true
  feasible : Bool := true
  /-- read off the constraints when they were put -/
  summary : Summary := .of constraints
  /-- no change of the constraints goes past the summary -/
  upToDate : summary = .of constraints := by rfl
  deriving DecidableEq

abbrev PathM := StoreM PathStore

namespace PathStore

/-- The store without constraints. -/
def empty : PathStore := {}

instance : Inhabited PathStore := ⟨empty⟩

def paths (s : PathStore) : List AccessPath := s.constraints.flatMap Constraint.paths

/-- Pointers that the constraints read. -/
def pointers (s : PathStore) : SortedSet Pointer := s.summary.pointers

/-- Symbols of all paths. -/
def symbols (s : PathStore) : SortedSet String := s.summary.symbols

/-- The conjunction for a solver: the constraints, and no allocated object is null. -/
def encoding (s : PathStore) : Smt.Formula := s.summary.encoding

/-- Other constraints, which the solver has not seen. -/
def put (s : PathStore) (cs : List Constraint) : PathStore :=
  { constraints := cs, checked := false, feasible := s.feasible }

/-- Symbols of the bare references to allocated objects. -/
def siteSymbols (s : PathStore) : SortedSet String :=
  .ofList ((s.paths.filter AccessPath.isSite).map AccessPath.symbol)

theorem mem_pointers {s : PathStore} {p : Pointer} :
    p ∈ s.pointers ↔ ∃ v ∈ s.paths, v.base = p := by
  rw [pointers, s.upToDate, Summary.mem_pointers_of, paths]

theorem mem_symbols {s : PathStore} {name : String} :
    name ∈ s.symbols ↔ ∃ v ∈ s.paths, v.symbol = name := by
  rw [symbols, s.upToDate, Summary.mem_symbols_of, paths]

theorem mem_siteSymbols {s : PathStore} {name : String} :
    name ∈ s.siteSymbols ↔ ∃ v ∈ s.paths, v.isSite = true ∧ v.symbol = name := by
  simp [siteSymbols, and_assoc]

theorem encoding_eq (s : PathStore) :
    s.encoding =
      .all (s.constraints.map Constraint.encode ++ s.siteSymbols.toList.map notNull) := by
  rw [encoding, s.upToDate, Summary.encoding_of fun _ => mem_siteSymbols]

def isRelevant (s : PathStore) (p : Pointer) : Bool := p ∈ s.pointers

theorem isRelevant_eq_any (s : PathStore) (p : Pointer) :
    s.isRelevant p = s.constraints.any (·.mentions p) := by
  rw [Bool.eq_iff_iff, isRelevant, decide_eq_true_eq, mem_pointers]
  have hmentions : ∀ c : Constraint, c.mentions p = true ↔ ∃ v ∈ c.paths, v.base = p := fun c => by
    simp only [Constraint.mentions, Term.mentions, ← List.any_append, Constraint.paths]
    simp only [List.any_eq_true, decide_eq_true_eq]
  simp only [paths, List.mem_flatMap, List.any_eq_true, hmentions]
  grind

/-- The constraint says that `p` is null. -/
def isNullTest (p : Pointer) (c : Constraint) : Bool :=
  c.op = .eq && (c.lhs = .bare p && c.rhs = .const 0 || c.lhs = .const 0 && c.rhs = .bare p)

def requiresNull (s : PathStore) (p : Pointer) : Bool := s.constraints.any (isNullTest p)

/-- First fields read through `base`. -/
def fieldsReadThrough (s : PathStore) (base : Pointer) : SortedSet Field :=
  .ofList ((s.paths.filter (·.base = base)).filterMap AccessPath.first?)

def readsField (s : PathStore) (f : Field) : Bool := s.paths.any (·.first? = some f)

/-- `p` is compared with zero and with nothing else. -/
def onlySignTests (s : PathStore) (p : Pointer) : Bool :=
  (s.constraints.filter (·.mentions p)).all fun c =>
    c.lhs = .bare p && c.rhs = .const 0 || c.lhs = .const 0 && c.rhs = .bare p

/-- Nothing is left to produce. -/
def isWitness (s : PathStore) : Bool := s.feasible && s.constraints.isEmpty

def text (s : PathStore) : String :=
  if !s.feasible then "refuted"
  else if s.constraints.isEmpty then "true"
  else " && ".intercalate (s.constraints.map Constraint.text)

end PathStore

namespace PathM

open StoreM

/-- Marks the store as refuted and halts. -/
def refute {α : Type} (r : Refutation) : PathM α := do
  debug .path ("path refuted: " ++ r.message)
  modifyStore fun s => { s with feasible := false }
  halt r

def requireFeasible : PathM Unit := do
  if !(← store).feasible then halt .alreadyRefuted

def setConstraints (cs : List Constraint) : PathM Unit := modifyStore (·.put cs)

/-- Adds a constraint. A constant one is decided at once, a known one changes nothing, and one
beyond the limit is refused. -/
def add (c : Constraint) : PathM Unit := do
  requireFeasible
  match c.settle with
  | .unchanged | .resolved true => pure ()
  | .resolved false => refute (.contradiction c)
  | .dropped => debug .path ("not adding unfoldable " ++ c.text)
  | .changed c =>
    let cs := (← store).constraints
    if cs.any (·.sameAs c) then return
    if cs.length ≥ (← options).maxPathConstraints.toNat then
      session (Session.note .warn .path
        ("path store holds " ++ toString cs.length ++ " constraints, refusing " ++ c.text))
    else
      debug .path ("path += " ++ c.text)
      setConstraints (cs ++ [c])

/-- Adds a new constraint under the next number. -/
def require (lhs : Term) (op : CmpOp) (rhs : Term) : PathM Unit := do
  add (← session (Session.constraint lhs op rhs))

/-- Asks the solver, unless it has answered for this very conjunction. -/
def check : PathM Unit := do
  requireFeasible
  let s ← store
  if s.constraints.isEmpty || s.checked then return
  let answer ← session (Session.check s.encoding s.symbols.toList)
  modifyStore fun s => { s with checked := true }
  if answer = .unsat then refute (.unsat (s.constraints.map Constraint.id))

def isFeasible : PathM Bool := succeeds check

end PathM

end Refuter
