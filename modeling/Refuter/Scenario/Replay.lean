import Refuter.Query.Visit
import Refuter.Scenario.Basic

/-!
Replaying a scenario: every live branch is advanced over every step, and checked after it.

The replay ends early once a branch is a witness or no branch is left.
-/

namespace Refuter

/-- Outcome of a replay. -/
structure Report where
  name : String
  verdict : Verdict
  expected : Option Verdict
  /-- branches alive at the end -/
  branches : Nat
  refutations : List String
  optimistic : Nat
  deriving DecidableEq, Repr, Inhabited

namespace Report

def isExpected (r : Report) : Bool := r.expected.all (· = r.verdict)

def text (r : Report) : String :=
  r.name ++ ": " ++ r.verdict.text ++ " (" ++ toString r.branches ++ " live, " ++
    toString r.refutations.length ++ " refuted" ++
    (if r.optimistic > 0 then ", " ++ toString r.optimistic ++ " optimistic" else "") ++ ")" ++
    (match r.expected with
      | some v => if v = r.verdict then "" else " expected " ++ v.text
      | none => "")

end Report

/-- What is wrong with a scenario that could be read. -/
inductive ScenarioError where
  | goalWithoutSink
  /-- a written rule has an edge with an end without candidates -/
  | emptyCandidates (step : Nat)
  deriving DecidableEq, Repr, Inhabited

def ScenarioError.message : ScenarioError → String
  | goalWithoutSink => "goal edge has no sink"
  | emptyCandidates n => "step " ++ toString n ++ ": rule edge with an empty candidate set"

/-- Why a replay ends without a report. -/
inductive ReplayHalt where
  | invalid (e : ScenarioError)
  | fault (f : Fault)
  deriving DecidableEq

abbrev ReplayM := EStateM ReplayHalt Session

/-- Branches alive and refutations so far. -/
structure Search where
  live : List Query := []
  refutations : List String := []

namespace Search

def hasWitness (s : Search) : Bool := s.live.any fun q => q.isWitness || q.optimistic

def refute (s : Search) (place : String) (r : Refutation) : Search :=
  { s with refutations := s.refutations ++ [place ++ ": " ++ r.message] }

def verdict (s : Search) : Verdict :=
  if s.hasWitness then .witness else if s.live.isEmpty then .refuted else .undecided

end Search

namespace ReplayM

variable {α : Type}

def session (x : SessionM α) : ReplayM α := fun s =>
  let (a, s) := x s
  .ok a s

/-- Runs an operation on a branch. -/
def onQuery (x : QueryM α) (q : Query) : ReplayM (Except Refutation (α × Query)) := fun s =>
  match x ⟨q, s⟩ with
  | .ok a f => .ok (.ok (a, f.store)) f.session
  | .error (.refuted r) f => .ok (.error r) f.session
  | .error (.fault b) f => .error (.fault b) f.session

end ReplayM

namespace Scenario

open ReplayM

/-- The first branch, which the goal itself may refute. -/
def start (sc : Scenario) : ReplayM (Except Refutation Query) := do
  let goal : QueryM Unit ←
    match sc.goal with
    | .edge source field sink =>
      let some sink ← session (Session.fresh (Pointer.ofCandidates (.ofList sink)))
        | throw (.invalid .goalWithoutSink)
      pure (QueryM.requireEdge ⟨.known source, field, sink⟩)
    | .constraint lhs op rhs =>
      pure (QueryM.requireConstraint (← session (Session.constraint lhs.term op rhs.term)))
  return (← onQuery goal {}).map Prod.snd

/-- The rules that a step brings along. -/
def rulesOf (n : Nat) : Step → ReplayM RuleSource
  | .visit site _ (some patterns) => do
    match ← session (Session.fresh (RulePattern.rules? patterns site.method)) with
    | some rules => return .fixed rules
    | none => throw (.invalid (.emptyCandidates n))
  | _ => pure .derived

/-- What a step does to a branch; gives the further branches. -/
def stepOn (h : HeapGraph) (rules : RuleSource) : Step → QueryM (List Query)
  | .visit site i _ => QueryM.visit h site i rules
  | .enterCallee site call callee => do QueryM.enterCallee call site callee; return []
  | .returnToCaller site call => do QueryM.returnToCaller call site; return []
  | .skipCall site call => do QueryM.skipCall call site; return []
  | .declareWitness => do QueryM.declareWitness; return []

/-- Advances branches by a step and collects what comes of them. -/
def advance (place : String) (x : QueryM (List Query)) : List Query → Search → ReplayM Search
  | [], s => pure s
  | q :: rest, s => do
    match ← onQuery x q with
    | .ok (more, q) => advance place x rest { s with live := s.live ++ q :: more }
    | .error r => advance place x rest (s.refute place r)

/-- Replays the steps from number `n` on. -/
def replayFrom (sc : Scenario) : (n : Nat) → List Step → Search → ReplayM Search
  | _, [], s => pure s
  | n, step :: rest, s => do
    if s.hasWitness then
      session (Session.note .debug .scenario
        (sc.name ++ ": witness before step " ++ toString n))
      return s
    if s.live.isEmpty then return s
    let place := "step " ++ toString n
    let rules ← rulesOf n step
    let s ← advance place (stepOn sc.heap rules step) s.live { s with live := [] }
    let s ← advance place (do QueryM.check; return []) s.live { s with live := [] }
    session (Session.note .debug .scenario
      (sc.name ++ ": " ++ toString s.live.length ++ " live after step " ++ toString n))
    replayFrom sc (n + 1) rest s

/-- Replays a scenario. -/
def replay (sc : Scenario) : ReplayM Report := do
  let s : Search :=
    match ← start sc with
    | .ok q => { live := [q] }
    | .error r => ({} : Search).refute "goal" r
  let s ← replayFrom sc 0 sc.trace s
  return {
    name := sc.name
    verdict := s.verdict
    expected := sc.expect
    branches := s.live.length
    refutations := s.refutations
    optimistic := (← get).optimistic }

end Scenario

end Refuter
