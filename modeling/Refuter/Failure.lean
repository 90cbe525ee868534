import Refuter.Files.Tree
import Refuter.Scenario.Replay

/-!
Failures of a run's surroundings: files, settings, scenarios and the solver. A refutation is none
of these.
-/

namespace Refuter

/-- What is wrong with settings. -/
inductive ConfigError where
  | malformed
  /-- no constraint could ever be held -/
  | noConstraints
  deriving DecidableEq, Repr, Inhabited

def ConfigError.message : ConfigError → String
  | malformed => "not a table of known settings"
  | noConstraints => "max_path_constraints must be at least 1"

inductive Failure where
  | io (path : String) (e : FileError)
  | config (path : String) (e : ConfigError)
  /-- the text is no scenario -/
  | unreadableScenario (path : String)
  | scenario (name : String) (e : ScenarioError)
  | solver (reason : String)
  deriving DecidableEq, Repr, Inhabited

def Failure.message : Failure → String
  | io path e => path ++ ": " ++ e.message
  | config path e => path ++ ": invalid config: " ++ e.message
  | unreadableScenario path => path ++ ": invalid scenario: not a scenario"
  | scenario name e => name ++ ": invalid scenario: " ++ e.message
  | solver reason => "smt solver: " ++ reason

end Refuter
