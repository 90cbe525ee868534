import Refuter.Format.Scenario
import Refuter.Session.Start

/-!
Scenarios from files.
-/

namespace Refuter

namespace Scenario

/-- The scenario of a file. One without a name is named after its file. -/
def load (s : Surroundings) (path : String) : Except Failure Scenario :=
  match s.read path with
  | .error e => .error (.io path e)
  | .ok text =>
    match ofText? text with
    | none => .error (.unreadableScenario path)
    | some sc =>
      if sc.name = "" then .ok { sc with name := ((Files.lastName? path).map Files.stem).getD "" }
      else .ok sc

/-- What comes of a scenario: a report or a failure, unless a promise was broken. -/
abbrev Outcome := Except Fault (Except Failure Report)

/-- Replays a scenario in a session; gives the session after it too. -/
def outcome (sc : Scenario) (session : Session) : Outcome × Session :=
  match sc.replay session with
  | .ok report s => (.ok (.ok report), s)
  | .error (.invalid e) s => (.ok (.error (.scenario sc.name e)), s)
  | .error (.fault f) s => (.error f, s)

/-- Replays the scenario of a file in a session of its own; gives its records too. -/
def replayFile (s : Surroundings) (options : Options) (path : String) : Outcome × List Record :=
  match do return (← load s path, ← Session.ofOptions options) with
  | .error e => (.ok (.error e), [])
  | .ok (sc, session) =>
    let (outcome, session) := sc.outcome session
    (outcome, session.records)

/-- Replays the scenarios of files, each in a session of its own. A broken promise ends it. -/
def replayFiles (s : Surroundings) (options : Options) :
    List String → Except Fault (List (Except Failure Report)) × List Record
  | [] => (.ok [], [])
  | path :: rest =>
    match replayFile s options path with
    | (.error f, records) => (.error f, records)
    | (.ok result, records) =>
      let (results, more) := replayFiles s options rest
      (results.map (result :: ·), records ++ more)

end Scenario

end Refuter
