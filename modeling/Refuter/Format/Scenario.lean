import Refuter.Format.Program
import Refuter.Json.Reader
import Refuter.Scenario.Basic
import Refuter.Session.Options

/-!
JSON forms of points-to facts, scenarios and settings, and scenarios from text.
-/

namespace Refuter

open Json

instance : JsonForm RootFact where
  encode r := .obj [("root", encode r.root), ("points_to", encode r.pointsTo)]
  decodeAt? p j := do
    let m ← members? ["root", "points_to"] p j
    return ⟨← m.required? "root", ← m.required? "points_to"⟩

instance : JsonForm FieldFact where
  encode e := .obj [("source", encode e.source), ("field", encode e.field), ("sink", encode e.sink)]
  decodeAt? p j := do
    let m ← members? ["source", "field", "sink"] p j
    return ⟨← m.required? "source", ← m.required? "field", ← m.required? "sink"⟩

instance : JsonForm HeapGraph where
  encode h :=
    .obj [("roots", encode h.roots), ("edges", encode h.edges), ("fields", encode h.fields)]
  decodeAt? p j := do
    let m ← members? ["roots", "edges", "fields"] p j
    return ⟨← m.getD? "roots" [], ← m.getD? "edges" [], ← m.getD? "fields" []⟩

instance : JsonForm Verdict where
  encode v := .str v.text
  decodeAt? := named? Verdict.all Verdict.text

instance : JsonForm GoalTerm where
  encode
    | .const v => variant "const" (encode v)
    | .path base fields => variant "var" (.obj [("base", encode base), ("fields", encode fields)])
  decodeAt? p j := do
    match ← variant? p j with
    | ("const", payload) => return .const (← decodeAt? p payload)
    | ("var", payload) =>
      let m ← members? ["base", "fields"] p payload
      return .path (← m.required? "base") (← m.getD? "fields" [])
    | _ => none

instance : JsonForm Goal where
  encode
    | .edge source field sink => variant "edge"
        (.obj [("source", encode source), ("field", encode field), ("sink", encode sink)])
    | .constraint lhs op rhs => variant "constraint"
        (.obj [("lhs", encode lhs), ("op", encode op), ("rhs", encode rhs)])
  decodeAt? p j := do
    match ← variant? p j with
    | ("edge", payload) =>
      let m ← members? ["source", "field", "sink"] p payload
      return .edge (← m.required? "source") (← m.getD? "field" none) (← m.required? "sink")
    | ("constraint", payload) =>
      let m ← members? ["lhs", "op", "rhs"] p payload
      return .constraint (← m.required? "lhs") (← m.required? "op") (← m.required? "rhs")
    | _ => none

instance : JsonForm EdgePattern where
  encode e := .obj [("source", encode e.source), ("field", encode e.field), ("sink", encode e.sink)]
  decodeAt? p j := do
    let m ← members? ["source", "field", "sink"] p j
    return ⟨← m.required? "source", ← m.getD? "field" none, ← m.required? "sink"⟩

instance : JsonForm RulePattern where
  encode r := .obj [("shown", encode r.shown), ("to_show", encode r.premises)]
  decodeAt? p j := do
    let m ← members? ["shown", "to_show"] p j
    return ⟨← m.required? "shown", ← m.getD? "to_show" []⟩

/-- Names of the steps in their form. -/
def Step.names : List String :=
  ["visit", "enter_callee", "return_to_caller", "skip_call", "declare_witness"]

instance : JsonForm Step where
  encode
    | .visit site i rules => tagged "step" "visit"
        [("site", encode site), ("instr", encode i), ("rules", encode rules)]
    | .enterCallee site call callee => tagged "step" "enter_callee"
        [("site", encode site), ("call", encode call), ("callee", encode callee)]
    | .returnToCaller site call => tagged "step" "return_to_caller"
        [("site", encode site), ("call", encode call)]
    | .skipCall site call => tagged "step" "skip_call"
        [("site", encode site), ("call", encode call)]
    | .declareWitness => tagged "step" "declare_witness" []
  decodeAt? p j := do
    let (step, parts) ← tagged? "step" Step.names p j
    match step with
    | "visit" =>
      let m ← members? ["site", "instr", "rules"] .within parts
      return .visit (← m.required? "site") (← m.required? "instr") (← m.getD? "rules" none)
    | "enter_callee" =>
      let m ← members? ["site", "call", "callee"] .within parts
      return .enterCallee (← m.required? "site") (← m.required? "call") (← m.required? "callee")
    | "return_to_caller" =>
      let m ← members? ["site", "call"] .within parts
      return .returnToCaller (← m.required? "site") (← m.required? "call")
    | "skip_call" =>
      let m ← members? ["site", "call"] .within parts
      return .skipCall (← m.required? "site") (← m.required? "call")
    | "declare_witness" =>
      match parts with
      | .arr (_ :: _) => none
      | _ => some .declareWitness
    | _ => none

/-- Keys of a scenario. -/
def Scenario.keys : List String := ["name", "heap", "goal", "trace", "expect"]

instance : JsonForm Scenario where
  encode s := .obj [("name", encode s.name), ("heap", encode s.heap), ("goal", encode s.goal),
    ("trace", encode s.trace), ("expect", encode s.expect)]
  decodeAt? p j := do
    let m ← members? Scenario.keys p j
    return {
      name := ← m.getD? "name" ""
      heap := ← m.getD? "heap" {}
      goal := ← m.required? "goal"
      trace := ← m.getD? "trace" []
      expect := ← m.getD? "expect" none }

instance : JsonForm SolverKind where
  encode k := .str k.text
  decodeAt? := named? SolverKind.all SolverKind.text

instance : JsonForm Options where
  encode o := .obj [("index_sensitivity", encode o.indexSensitivity),
    ("narrow_from_constraints", encode o.narrowFromConstraints),
    ("max_path_constraints", encode o.maxPathConstraints), ("solver", encode o.solver),
    ("smt_timeout", encode o.smtTimeout), ("smt_transcript", encode o.smtTranscript)]
  decodeAt? p j := do
    let m ← closedMembers? Options.keys p j
    return {
      indexSensitivity := ← m.getD? "index_sensitivity" true
      narrowFromConstraints := ← m.getD? "narrow_from_constraints" true
      maxPathConstraints := ← m.getD? "max_path_constraints" 16
      solver := ← m.getD? "solver" .z3
      smtTimeout := ← m.getD? "smt_timeout" 5000
      smtTranscript := ← m.getD? "smt_transcript" none }

/-! ## Text -/

/-- Steps and instructions are read as a whole before their parts. -/
def Step.ofText? (text : String) : Option Step := do
  let j ← parse? text
  if j.isBuffered 0 then decode? j else none

def Instruction.ofText? (text : String) : Option Instruction := do
  let j ← parse? text
  if j.isBuffered 0 then decode? j else none

/-- The steps of a scenario in its JSON form. -/
def Scenario.stepItems (j : Json) : List Json :=
  match (members? Scenario.keys .own j).bind (·.entries.lookup "trace") with
  | some (.arr items) => items
  | _ => []

def Scenario.ofText? (text : String) : Option Scenario := do
  let j ← parse? text
  if (Scenario.stepItems j).all (·.isBuffered 2) then decode? j else none

end Refuter
