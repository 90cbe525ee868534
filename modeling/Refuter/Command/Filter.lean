import Refuter.Regex.Reader
import Refuter.Session.Journal

/-!
Which records are shown, and how.

A filter is a list of directives, divided by commas: a level, a target, or both with an equals sign
between them. The directive with the longest target that begins the record's target decides. What
comes after a slash is a regular expression that must occur in a record.
-/

namespace Refuter.Command

/-- Name of the part of the program that a record comes from. -/
def target : Topic → String
  | .path => "backsym::path"
  | .heap => "backsym::pointsto"
  | .query => "backsym::query"
  | .session => "backsym::session"
  | .scenario => "backsym::scenario"
  | .config => "backsym::config"
  | .command => "backsym"

structure Directive where
  /-- empty for all targets -/
  target : String
  /-- records up to this rank are shown -/
  rank : Nat
  deriving DecidableEq, Repr, Inhabited

/-- Rank that shows everything. -/
def everything : Nat := 5

/-- Ranks of the level names. -/
def ranks : List (String × Nat) :=
  [("off", 0), ("error", 1), ("warn", 2), ("info", 3), ("debug", 4), ("trace", everything)]

def rank? (name : String) : Option Nat := ranks.lookup name.toLower

/-- Drops blanks at both ends. -/
def trim (text : String) : String := String.ofList (CharSet.space.trim text.toList)

def directive? (text : String) : Option Directive :=
  match text.splitOn "=" with
  | [name] =>
    match rank? name with
    | some rank => some ⟨"", rank⟩
    | none => some ⟨name, everything⟩
  | [name, level] =>
    let level := trim level
    if level = "" then some ⟨name, everything⟩ else (rank? level).map (⟨name, ·⟩)
  | _ => none

structure Filter where
  directives : List Directive
  /-- must occur in a record -/
  pattern? : Option Regex := none
  deriving DecidableEq, Repr, Inhabited

namespace Filter

/-- Reads directives; malformed ones are ignored, and without any only errors are shown. -/
def ofDirectives (text : String) : List Directive :=
  let words := (text.splitOn ",").map trim
  match (words.filter (· ≠ "")).filterMap directive? with
  | [] => [⟨"", 1⟩]
  | l => l

/-- Reads a filter. One with several slashes is ignored, and so is a malformed expression. -/
def ofText (text : String) : Filter :=
  match text.splitOn "/" with
  | [directives] => ⟨ofDirectives directives, none⟩
  | [directives, pattern] => ⟨ofDirectives directives, Regex.ofText? pattern⟩
  | _ => ⟨ofDirectives "", none⟩

/-- The directive that decides on a target: the last one with the longest name. -/
def decisive? (f : Filter) (target : String) : Option Directive :=
  (f.directives.filter (target.startsWith ·.target)).foldl (fun best d =>
    match best with
    | some b => if b.target.length ≤ d.target.length then some d else some b
    | none => some d) none

def shows (f : Filter) (r : Record) : Bool :=
  (f.decisive? (target r.topic)).any (r.level.rank ≤ ·.rank) &&
    f.pattern?.all (·.occursIn r.text)

end Filter

/-- The text of a shown record. Further lines are indented. -/
def recordText (r : Record) : String :=
  let level := r.level.text ++ String.ofList (List.replicate (5 - r.level.text.length) ' ')
  "[" ++ level ++ " " ++ target r.topic ++ "] " ++ "\n    ".intercalate (r.text.splitOn "\n")

end Refuter.Command
