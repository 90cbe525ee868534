/-!
What a search tells about its progress.
-/

namespace Refuter

inductive Level where
  | error | warn | info | debug
  deriving DecidableEq, Repr, Inhabited

namespace Level

/-- Severe levels have a small rank. -/
def rank : Level → Nat
  | error => 1
  | warn => 2
  | info => 3
  | debug => 4

def text : Level → String
  | error => "ERROR"
  | warn => "WARN"
  | info => "INFO"
  | debug => "DEBUG"

end Level

/-- Part of the search that a record comes from. -/
inductive Topic where
  | path | heap | query | session | scenario | config | command
  deriving DecidableEq, Repr, Inhabited

structure Record where
  level : Level
  topic : Topic
  text : String
  deriving DecidableEq, Repr, Inhabited

end Refuter
