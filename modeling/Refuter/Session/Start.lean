import Refuter.Failure

/-!
Starting a session, with or without a solver.
-/

namespace Refuter.Session

/-- A session that decides by constant folding alone. -/
def offline (options : Options) : Session := { options }

/-- A solver that records its calls at the end of a file, if one is named. -/
def solverFor (files : Files.Tree) (transcript : Option String) (backend : Smt.Backend) :
    Except Failure Smt.Solver := do
  match transcript with
  | none => return { backend }
  | some path =>
    match files.openEnd path with
    | .ok text => return { backend, transcript := some text }
    | .error e => throw (.io path e)

def withBackend (files : Files.Tree) (options : Options) (backend : Smt.Backend) :
    Except Failure Session := do
  return { options, solver := some (← solverFor files options.smtTranscript backend) }

/-- A session with the solver that the settings name. No solver process can be started here. -/
def ofOptions (options : Options) : Except Failure Session :=
  match options.solver with
  | .none => .ok (offline options)
  | .z3 => .error (.solver "no solver process is available")

end Refuter.Session
