/-!
Settings of a search.
-/

namespace Refuter

/-- Who decides feasibility. -/
inductive SolverKind where
  | z3
  /-- constant folding alone -/
  | none
  deriving DecidableEq, Repr, Inhabited

namespace SolverKind

def text : SolverKind → String
  | z3 => "z3"
  | none => "none"

def all : List SolverKind := [z3, none]

end SolverKind

structure Options where
  /-- give array elements index names instead of forgetting them -/
  indexSensitivity : Bool := true
  /-- intersect the candidates of two choices; otherwise merging only widens -/
  narrowFromConstraints : Bool := true
  /-- constraints beyond this number are refused -/
  maxPathConstraints : UInt64 := 16
  solver : SolverKind := .z3
  /-- in milliseconds -/
  smtTimeout : UInt64 := 5000
  /-- file that records all that is sent to the solver -/
  smtTranscript : Option String := none
  deriving DecidableEq, Repr, Inhabited

/-- Names of the settings in a file. -/
def Options.keys : List String :=
  ["index_sensitivity", "narrow_from_constraints", "max_path_constraints", "solver",
    "smt_timeout", "smt_transcript"]

end Refuter
