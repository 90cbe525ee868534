/-!
Written paths of files.
-/

namespace Refuter.Files

/-- Names on a path from the top directory down. -/
abbrev Place := List String

/-- The parts of a written path; two slashes in a row have an empty part between them. -/
def parts (path : String) : List String := path.splitOn "/"

/-- The absolute path of a place. -/
def Place.text (place : Place) : String := String.join (place.map ("/" ++ ·))

/-- The place itself and all places above it, the nearest first. -/
def Place.upwards (place : Place) : List Place :=
  (List.range (place.length + 1)).reverse.map place.take

/-- The last name of a path, if it has one and does not lead upwards. -/
def lastName? (path : String) : Option String :=
  ((parts path).filter fun name => name ≠ "" && name ≠ ".").getLast?.filter (· ≠ "..")

/-- A name without its extension: the last dot and what follows it. A dot at the start of a name
begins no extension. -/
def stem (name : String) : String :=
  match (name.splitOn ".").reverse with
  | _ :: rest =>
    let before := ".".intercalate rest.reverse
    if before = "" then name else before
  | [] => name

end Refuter.Files
