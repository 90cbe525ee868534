/-!
Arguments of the command line.

Words with two dashes name options, words with one dash are groups of letters, and all others are
scenario files. After a lone double dash all words are files. An option takes its value after an
equals sign or from the next word, which must not look like an option. Each option is given at most
once, and at least one file is named. Help is given as soon as it is asked for, before any of these
is looked at.
-/

namespace Refuter.Command

structure Arguments where
  config : Option String := none
  noSolver : Bool := false
  smtTimeout : Option String := none
  smtTranscript : Option String := none
  slow : Bool := false
  scenarios : List String := []
  deriving DecidableEq, Repr, Inhabited

/-- What the command line asks for. -/
inductive Request where
  | help
  | version
  | misuse
  | replay (args : Arguments)
  deriving DecidableEq, Repr, Inhabited

/-- Files that are read to serve a request, beside the configuration file that is searched. -/
def Request.paths : Request → List String
  | replay args => args.config.toList ++ args.scenarios
  | _ => []

/-- Options that take a value. -/
inductive Setting where
  | config | smtTimeout | smtTranscript
  deriving DecidableEq, Repr, Inhabited

namespace Setting

def name : Setting → String
  | config => "config"
  | smtTimeout => "smt-timeout"
  | smtTranscript => "smt-transcript"

def all : List Setting := [config, smtTimeout, smtTranscript]

end Setting

/-- Options that take none. -/
inductive Flag where
  | noSolver | slow
  deriving DecidableEq, Repr, Inhabited

namespace Flag

def name : Flag → String
  | noSolver => "no-solver"
  | slow => "slow"

def all : List Flag := [noSolver, slow]

end Flag

/-- What was read so far. -/
structure Reading where
  flags : List Flag := []
  /-- settings with their values; a value may be missing -/
  settings : List (Setting × Option String) := []
  scenarios : List String := []

namespace Reading

def addValue (r : Reading) (s : Setting) (v : Option String) : Reading :=
  { r with settings := r.settings ++ [(s, v)] }

def addScenario (r : Reading) (path : String) : Reading :=
  { r with scenarios := r.scenarios ++ [path] }

/-- The value of a setting. -/
def value? (r : Reading) (s : Setting) : Option String := (r.settings.lookup s).join

/-- Each option is given once, each setting has a value, and a file is named. -/
def isProper (r : Reading) : Bool :=
  r.flags.Nodup && (r.settings.map Prod.fst).Nodup && r.settings.all (·.2.isSome) &&
    !r.scenarios.isEmpty

def request (r : Reading) : Request :=
  if r.isProper then
    .replay {
      config := r.value? .config
      noSolver := r.flags.contains .noSolver
      smtTimeout := r.value? .smtTimeout
      smtTranscript := r.value? .smtTranscript
      slow := r.flags.contains .slow
      scenarios := r.scenarios }
  else .misuse

end Reading

/-! ## Words -/

inductive Word where
  /-- a lone double dash -/
  | divider
  /-- an option, with the value after its equals sign -/
  | long (name : String) (value : Option String)
  | letters (letters : List Char)
  /-- a lone dash is a plain word too -/
  | plain (text : String)
  deriving DecidableEq, Repr, Inhabited

/-- An option without its dashes; further equals signs before the value are skipped. -/
def longWord (cs : List Char) : Word :=
  let body := cs.dropWhile (· = '-')
  let value := match body.dropWhile (· ≠ '=') with
    | '=' :: rest => some (String.ofList (rest.dropWhile (· = '=')))
    | _ => none
  .long (String.ofList (body.takeWhile (· ≠ '='))) value

def Word.ofText (text : String) : Word :=
  match text.toList with
  | ['-', '-'] => .divider
  | '-' :: '-' :: rest => longWord rest
  | '-' :: c :: rest => .letters (c :: rest)
  | _ => .plain text

/-- What a group of letters asks for: its first letter counts, since none of them can be followed
by another option. -/
def lettersRequest : List Char → Request
  | 'h' :: _ => .help
  | 'V' :: _ => .version
  | _ => .misuse

/-- Help that a long option asks for. -/
def longRequest? : String → Option Request
  | "help" => some .help
  | "version" => some .version
  | _ => none

/-! ## Reading -/

/-- Reads the words of a replay. -/
def readReplay (r : Reading) : List String → Request
  | [] => r.request
  | text :: rest =>
    match Word.ofText text with
    | .divider => ({ r with scenarios := r.scenarios ++ rest } : Reading).request
    | .plain path => readReplay (r.addScenario path) rest
    | .letters cs => lettersRequest cs
    | .long name value =>
      match longRequest? name with
      | some request => request
      | none =>
        match Flag.all.find? (·.name = name), Setting.all.find? (·.name = name), value, rest with
        | some f, _, _, rest => readReplay { r with flags := f :: r.flags } rest
        | none, none, _, _ => .misuse
        | none, some s, some v, rest => readReplay (r.addValue s (some v)) rest
        | none, some s, none, [] => (r.addValue s none).request
        | none, some s, none, next :: rest =>
          match Word.ofText next with
          | .plain v => readReplay (r.addValue s (some v)) rest
          | _ => readReplay (r.addValue s none) (next :: rest)

/-- Words after `help`: nothing or the name of a command. -/
def readHelp : List String → Request
  | [] | ["replay"] | ["help"] => .help
  | _ => .misuse

/-- Reads a command line. -/
def Request.ofWords : List String → Request
  | "replay" :: rest => readReplay {} rest
  | "help" :: rest => readHelp rest
  | text :: _ =>
    match Word.ofText text with
    | .long name _ => (longRequest? name).getD .misuse
    | .letters cs => lettersRequest cs
    | _ => .misuse
  | [] => .misuse

end Refuter.Command
