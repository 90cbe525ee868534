import Refuter.Json.Token

/-!
Reading JSON text.

Tokens are taken one by one with a stack of the arrays and objects that are still open. The text
must hold exactly one value.
-/

namespace Refuter.Json

/-- An array or object that is still open, with its parts in reverse. -/
inductive Open where
  | arr (items : List Json)
  /-- with the key that waits for its value; there are no members once a key is no text -/
  | obj (members : Option (List (String × Json))) (key : Option String)

/-- What may come next. -/
inductive Expect where
  | value
  /-- the first item of an array, or its end -/
  | firstItem
  /-- the first key of an object, or its end -/
  | firstKey
  | key
  | colon
  /-- a comma or the end of the innermost array or object -/
  | more
  /-- the whole value was read -/
  | nothing (j : Json)

structure Reading where
  stack : List Open := []
  expect : Expect := .value

namespace Open

/-- An object with a new key. -/
def withKey (members : Option (List (String × Json))) : Json → Option Open
  | .str key => some (.obj members key)
  | .broken => some (.obj none none)
  | _ => none

/-- The value of what is closed now. -/
def close : Open → Json
  | .arr items => .arr items.reverse
  | .obj (some members) _ => .obj members.reverse
  | .obj none _ => .broken

/-- Adds a value. -/
def add (j : Json) : Open → Open
  | .arr items => .arr (j :: items)
  | .obj (some members) (some key) => .obj (some ((key, j) :: members)) none
  | .obj .. => .obj none none

end Open

namespace Reading

/-- A value is complete. -/
def complete (j : Json) : List Open → Reading
  | [] => ⟨[], .nothing j⟩
  | inner :: below => ⟨inner.add j :: below, .more⟩

def startValue (stack : List Open) : Token → Option Reading
  | .scalar j => some (complete j stack)
  | .mark '[' => some ⟨.arr [] :: stack, .firstItem⟩
  | .mark '\x7b' => some ⟨.obj (some []) none :: stack, .firstKey⟩
  | .mark _ => none

def startKey : List Open → Token → Option Reading
  | .obj members _ :: below, .scalar j => (Open.withKey members j).map (⟨· :: below, .colon⟩)
  | _, _ => none

def step (r : Reading) (t : Token) : Option Reading :=
  match r.expect, r.stack, t with
  | .value, stack, t => startValue stack t
  | .firstItem, .arr _ :: below, .mark ']' => some (complete (.arr []) below)
  | .firstItem, stack, t => startValue stack t
  | .firstKey, .obj .. :: below, .mark '\x7d' => some (complete (.obj []) below)
  | .firstKey, stack, t => startKey stack t
  | .key, stack, t => startKey stack t
  | .colon, stack, .mark ':' => some ⟨stack, .value⟩
  | .more, .arr items :: below, .mark ']' => some (complete (Open.arr items).close below)
  | .more, .obj members key :: below, .mark '\x7d' =>
    some (complete (Open.obj members key).close below)
  | .more, .arr items :: below, .mark ',' => some ⟨.arr items :: below, .value⟩
  | .more, .obj members key :: below, .mark ',' => some ⟨.obj members key :: below, .key⟩
  | _, _, _ => none

end Reading

/-- The value that a text holds. -/
def parse? (text : String) : Option Json := do
  let reading ← (← tokens? text).foldlM Reading.step {}
  match reading.expect with
  | .nothing j => some j
  | _ => none

end Refuter.Json
