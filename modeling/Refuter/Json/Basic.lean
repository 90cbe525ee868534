/-!
JSON values and their text.

An object keeps its members in order and may give a key twice, since a reader has to tell. Numbers
are integers or not; of the others only the size matters.
-/

namespace Refuter

inductive Json where
  | null
  | bool (b : Bool)
  /-- an integer literal of 64 bits, signed or unsigned -/
  | int (n : Int)
  /-- any other number, and whether a 64 bit float can hold its size -/
  | real (finite : Bool)
  | str (s : String)
  /-- a string with half of a surrogate pair, which is no text, or an object with such a key -/
  | broken
  | arr (items : List Json)
  | obj (members : List (String × Json))
  deriving Inhabited, Repr

namespace Json

/-! ## Text -/

def hexDigit (n : Nat) : Char :=
  if n < 10 then Char.ofNat (48 + n) else Char.ofNat (87 + n)

/-- Quotes, backslashes and control characters are escaped. -/
def escaped (c : Char) : List Char :=
  if c = '"' then ['\\', '"']
  else if c = '\\' then ['\\', '\\']
  else if c.toNat < 32 then
    ['\\', 'u', '0', '0', hexDigit (c.toNat / 16), hexDigit (c.toNat % 16)]
  else [c]

def quote (s : String) : String :=
  "\"" ++ String.ofList (s.toList.flatMap escaped) ++ "\""

mutual

/-- Text of a value without blanks. It reads back as the value: a number that is no integer is
written as any other of its kind, and so is a broken value. -/
def render : Json → String
  | null => "null"
  | real finite => if finite then "0.5" else "1e999"
  | broken => "\"\\ud800\""
  | bool b => if b then "true" else "false"
  | int n => toString n
  | str s => quote s
  | arr items => "[" ++ ",".intercalate (renderItems items) ++ "]"
  | obj members => "\x7b" ++ ",".intercalate (renderMembers members) ++ "\x7d"

def renderItems : List Json → List String
  | [] => []
  | j :: rest => j.render :: renderItems rest

def renderMembers : List (String × Json) → List String
  | [] => []
  | (key, j) :: rest => (quote key ++ ":" ++ j.render) :: renderMembers rest

end

/-! ## Shape -/

mutual

/-- Levels of arrays and objects. -/
def depth : Json → Nat
  | arr items => 1 + depthItems items
  | obj members => 1 + depthMembers members
  | _ => 0

def depthItems : List Json → Nat
  | [] => 0
  | j :: rest => max j.depth (depthItems rest)

def depthMembers : List (String × Json) → Nat
  | [] => 0
  | (_, j) :: rest => max j.depth (depthMembers rest)

end

mutual

/-- Every string and key is a text and every number has a value. -/
def isSound : Json → Bool
  | broken => false
  | real finite => finite
  | arr items => areSound items
  | obj members => areMembersSound members
  | _ => true

def areSound : List Json → Bool
  | [] => true
  | j :: rest => j.isSound && areSound rest

def areMembersSound : List (String × Json) → Bool
  | [] => true
  | (_, j) :: rest => j.isSound && areMembersSound rest

end

end Json

end Refuter
