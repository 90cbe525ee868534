import Refuter.Command.Arguments
import Refuter.Command.Filter
import Refuter.Config
import Refuter.Scenario.Load

/-!
A run of the command line: it loads the settings, replays the scenarios and tells how they ended.
-/

namespace Refuter.Command

/-- How a run ended and what it told. -/
structure Ending where
  code : UInt8
  records : List Record := []
  deriving DecidableEq, Repr, Inhabited

/-- Exit code of a run whose scenarios all ended as expected. -/
def success : UInt8 := 0

/-- Exit code of a misused command line, and of a run with a failed scenario. -/
def failed : UInt8 := 1

/-- Exit code of a run that could not begin. -/
def unusable : UInt8 := 9

/-- Exit code of a run that broke off. -/
def brokeOff : UInt8 := 101

/-- A number of milliseconds. -/
def timeout? (text : String) : Option UInt64 :=
  let digits := match text.toList with
    | '+' :: rest => rest
    | cs => cs
  if digits.isEmpty || !digits.all Char.isDigit then none
  else
    let n := digits.foldl (fun n c => n * 10 + (c.toNat - '0'.toNat)) 0
    if n < UInt64.size then some (.ofNat n) else none

/-- The settings with those of the command line in place; the message says what is wrong. -/
def adjust (args : Arguments) (options : Options) : Except String Options := do
  let options := if args.noSolver then { options with solver := .none } else options
  let options ← match args.smtTimeout with
    | none => pure options
    | some text =>
      match timeout? text with
      | some ms => pure { options with smtTimeout := ms }
      | none => throw ("--smt-timeout: not a number: " ++ text)
  return match args.smtTranscript with
    | some path => { options with smtTranscript := some path }
    | none => options

/-- The scenario did not end in a report that is as expected. -/
def hasFailed : Except Failure Report → Bool
  | .ok report => !report.isExpected
  | .error _ => true

/-- What is told about a scenario. -/
def tell (path : String) : Except Failure Report → List Record
  | .ok report =>
    ⟨if report.isExpected then .info else .error, .command, report.text⟩ ::
      report.refutations.map fun r => ⟨.debug, .command, "  " ++ r⟩
  | .error e => [⟨.error, .command, path ++ ": " ++ e.message⟩]

/-- Loads the settings; gives what was told too. -/
def settings (s : Surroundings) (args : Arguments) : Except String Options × List Record :=
  let (config, records) := match args.config with
    | some path => (Config.load s path, [])
    | none => Config.search s
  match config with
  | .ok c => (adjust args c.query, records)
  | .error e => (.error e.message, records)

/-- Replays the scenarios that the arguments name. -/
def replay (s : Surroundings) (args : Arguments) : Ending :=
  match settings s args with
  | (.error message, records) => ⟨unusable, records ++ [⟨.error, .command, message⟩]⟩
  | (.ok options, records) =>
    match Scenario.replayFiles s options args.scenarios with
    | (.error _, more) => ⟨brokeOff, records ++ more⟩
    | (.ok results, more) =>
      ⟨if results.any hasFailed then failed else success,
        records ++ more ++ (args.scenarios.zip results).flatMap fun (path, r) => tell path r⟩

/-- Runs a command line. -/
def run (s : Surroundings) (words : List String) : Ending :=
  match Request.ofWords words with
  | .help | .version => ⟨success, []⟩
  | .misuse => ⟨failed, []⟩
  | .replay args => replay s args

/-- What a run shows. The filter shows records down to `info` if none is given. -/
def Ending.shown (e : Ending) (filter : Option String) : List String :=
  (e.records.filter (Filter.ofText (filter.getD "info")).shows).map recordText

end Refuter.Command
