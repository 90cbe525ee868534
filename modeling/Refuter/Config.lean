import Refuter.Failure
import Refuter.Session.Options
import Refuter.Toml.Reader

/-!
Settings from a configuration file, which is searched upwards from the working directory.
-/

namespace Refuter

structure Config where
  query : Options := {}
  deriving DecidableEq, Repr, Inhabited

namespace Config

/-- Name of a configuration file. -/
def fileName : String := "backsym.toml"

def solver? (d : Toml.Document) (v : Toml.Value) : Option SolverKind := do
  let name ← v.name? d
  SolverKind.all.find? (·.text = name)

/-- The settings in a table, or in an array by position. -/
def options? (d : Toml.Document) (v : Toml.Value) : Option Options := do
  let r ← v.record? Options.keys
  let usual : Options := {}
  return {
    indexSensitivity := ← r.getD? "index_sensitivity" usual.indexSensitivity Toml.Value.bool?
    narrowFromConstraints :=
      ← r.getD? "narrow_from_constraints" usual.narrowFromConstraints Toml.Value.bool?
    maxPathConstraints :=
      ← r.getD? "max_path_constraints" usual.maxPathConstraints Toml.Value.natural?
    solver := ← r.getD? "solver" usual.solver (solver? d)
    smtTimeout := ← r.getD? "smt_timeout" usual.smtTimeout Toml.Value.natural?
    smtTranscript := ← r.getD? "smt_transcript" usual.smtTranscript (·.text?.map some) }

/-- The settings of a document stand under `query`, which may be left out; other keys are
ignored. -/
def ofDocument? (d : Toml.Document) : Option Config :=
  match d.entries.filter (·.1 = "query") with
  | [] => some {}
  | [(_, v)] => (options? d v).map Config.mk
  | _ => none

/-- The settings of a text. At least one constraint can be held. -/
def ofText (text : String) : Except ConfigError Config :=
  match (Toml.parse? text).bind ofDocument? with
  | none => .error .malformed
  | some c => if c.query.maxPathConstraints = 0 then .error .noConstraints else .ok c

/-- The settings of a text that was found at a path. -/
def parse (path text : String) : Except Failure Config :=
  match ofText text with
  | .ok c => .ok c
  | .error e => .error (.config path e)

/-- The settings of a file. -/
def load (s : Surroundings) (path : String) : Except Failure Config :=
  match s.read path with
  | .ok text => parse path text
  | .error e => .error (.io path e)

/-- Path of the configuration file in a directory. -/
def pathIn (directory : String) : String := directory ++ "/" ++ fileName

/-- The nearest configuration file. -/
def find? (s : Surroundings) : Option String := (s.directories.map pathIn).find? s.has

/-- The settings of the nearest configuration file, and what is told about it. Without a file
they are the usual ones. -/
def search (s : Surroundings) : Except Failure Config × List Record :=
  match find? s with
  | none => (.ok {}, [])
  | some path => (load s path, [⟨.debug, .config, "using config \"" ++ path ++ "\""⟩])

end Config

end Refuter
