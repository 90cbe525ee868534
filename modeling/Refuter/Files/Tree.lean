import Refuter.Files.Path

/-!
Files as a program sees them: what reading a path gives, and where a new file can be made.
-/

namespace Refuter

/-- Why a file could not be used. -/
inductive FileError where
  | notFound
  | notDirectory
  | isDirectory
  | other (reason : String)
  deriving DecidableEq, Repr, Inhabited

def FileError.message : FileError → String
  | notFound => "No such file or directory (os error 2)"
  | notDirectory => "Not a directory (os error 20)"
  | isDirectory => "Is a directory (os error 21)"
  | other reason => reason

namespace Files

/-- What stands at a place. -/
inductive Node where
  | file (text : String)
  | directory
  deriving DecidableEq, Repr, Inhabited

/-- The files and directories that matter. A place above one of them is a directory. -/
structure Tree where
  entries : List (Place × Node) := []
  /-- directory that relative paths start from -/
  current : Place := []

namespace Tree

/-- What stands at a place; of two entries for a place the first. -/
def node? (t : Tree) (place : Place) : Option Node :=
  match t.entries.lookup place with
  | some n => some n
  | none =>
    if place = [] || place <+: t.current || t.entries.any (place <+: ·.1) then some .directory
    else none

/-- Where a written path starts. -/
def origin (t : Tree) (path : String) : Place := if path.startsWith "/" then [] else t.current

/-- The place that one part of a path leads to. -/
def enter (place : Place) (name : String) : Place :=
  if name = "" || name = "." then place
  else if name = ".." then place.dropLast
  else place ++ [name]

/-- Follows the parts of a path; all but the last lead through directories. -/
def follow (t : Tree) : Place → List String → Except FileError Place
  | place, [] => .ok place
  | place, name :: rest =>
    match t.node? place with
    | some .directory => t.follow (enter place name) rest
    | some (.file _) => .error .notDirectory
    | none => .error .notFound

/-- The text of a file. -/
def read (t : Tree) (path : String) : Except FileError String := do
  if path = "" then throw .notFound
  let place ← t.follow (t.origin path) (parts path)
  match t.node? place with
  | some (.file text) => return text
  | some .directory => throw .isDirectory
  | none => throw .notFound

/-- Follows the parts of a path; directories that are missing are made. -/
def followMaking (t : Tree) : Place → List String → Except FileError Place
  | place, [] =>
    match t.node? place with
    | some (.file _) => .error .notDirectory
    | _ => .ok place
  | place, name :: rest =>
    match t.node? place with
    | some (.file _) => .error .notDirectory
    | _ => t.followMaking (enter place name) rest

/-- The place of a file that is made together with the directories above it. -/
def placeFor (t : Tree) (path : String) : Except FileError Place := do
  let names := parts path
  let above ← t.followMaking (t.origin path) names.dropLast
  match names.getLast? with
  | none | some "" | some "." | some ".." => throw .isDirectory
  | some name => return above ++ [name]

/-- Adds an entry; it hides an earlier one for the same place. -/
def put (t : Tree) (place : Place) (n : Node) : Tree :=
  { t with entries := (place, n) :: t.entries }

/-- What a file holds that is opened to be written on at its end. A missing one is made. -/
def openEnd (t : Tree) (path : String) : Except FileError String := do
  match t.node? (← t.placeFor path) with
  | some (.file text) => return text
  | some .directory => throw .isDirectory
  | none => return ""

end Tree

end Files

/-- Surroundings of a run: what reading a path gives, and the working directory with the
directories above it, the nearest first. -/
structure Surroundings where
  read : String → Except FileError String
  directories : List String

/-- The surroundings that a tree gives. -/
def Files.Tree.surroundings (t : Files.Tree) : Surroundings where
  read := t.read
  directories := t.current.upwards.map (·.text)

/-- Something is at a path, be it a file or a directory. -/
def Surroundings.has (s : Surroundings) (path : String) : Bool :=
  match s.read path with
  | .error .notFound | .error .notDirectory => false
  | _ => true

end Refuter
