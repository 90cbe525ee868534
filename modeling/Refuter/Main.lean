import Refuter.Command.Run

/-!
The program: it reads the files that a command line names, runs it and prints what it shows.
-/

namespace Refuter.Command

def usage : String :=
  "USAGE:\n    backsym replay [--config <config>] [--no-solver] [--smt-timeout <smt-timeout>] " ++
    "[--smt-transcript <smt-transcript>] [--slow] <scenarios>..."

/-- The number of an error may come with either sign. -/
def fileErrorOf : IO.Error → FileError
  | .noFileOrDirectory .. => .notFound
  | .inappropriateType _ code _ => if code = 20 || code = -20 then .notDirectory else .isDirectory
  | e => .other (toString e)

def readFile (path : String) : IO (Except FileError String) := do
  try return .ok (← IO.FS.readFile path)
  catch e => return .error (fileErrorOf e)

/-- The surroundings in which the files of a command line are known. -/
def surroundingsFor (words : List String) : IO Surroundings := do
  let current : Files.Place := (Files.parts (← IO.currentDir).toString).filter (· ≠ "")
  let directories := current.upwards.map (·.text)
  let paths := directories.map Config.pathIn ++ (Request.ofWords words).paths
  let known ← paths.mapM fun path => return (path, ← readFile path)
  return { read := fun path => (known.lookup path).getD (.error .notFound), directories }

end Refuter.Command

open Refuter.Command in
def main (words : List String) : IO UInt32 := do
  match Request.ofWords words with
  | .help => IO.println usage
  | .version => IO.println "backsym 0.1.0"
  | .misuse => IO.eprintln usage
  | .replay _ => pure ()
  let ending := run (← surroundingsFor words) words
  for line in ending.shown (← IO.getEnv "RUST_LOG") do
    IO.eprintln line
  return ending.code.toUInt32
