import Refuter.Json.Basic

/-!
Values with a JSON form.

A record is an object whose known keys occur at most once, or an array that gives its parts by
position. A variant is the name of a case, alone or as the key of its payload; a tagged variant is
an object that holds the name of its case beside the parts.

The tag may come after the parts, so a tagged variant is read as a whole before its parts are looked
at. Such parts have more spellings than a value that stands on its own: a case without a payload may
be given an empty object, and the case of a tagged variant its number.
-/

namespace Refuter

/-- Where a value stands: on its own, or within a tagged variant. -/
inductive Json.Standing where
  | own
  | within
  deriving DecidableEq, Repr

class JsonForm (α : Type) where
  encode : α → Json
  decodeAt? : Json.Standing → Json → Option α

/-- Reads a value that stands on its own. -/
def JsonForm.decode? {α : Type} [JsonForm α] (j : Json) : Option α := decodeAt? .own j

namespace Json

export JsonForm (encode decodeAt? decode?)

/-! ## Scalars, lists and options -/

instance : JsonForm Bool where
  encode := .bool
  decodeAt?
    | _, .bool b => some b
    | _, _ => none

instance : JsonForm String where
  encode := .str
  decodeAt?
    | _, .str s => some s
    | _, _ => none

instance : JsonForm UInt32 where
  encode n := .int n.toNat
  decodeAt?
    | _, .int n => if 0 ≤ n && n < UInt32.size then some (.ofNat n.toNat) else none
    | _, _ => none

instance : JsonForm UInt64 where
  encode n := .int n.toNat
  decodeAt?
    | _, .int n => if 0 ≤ n && n < UInt64.size then some (.ofNat n.toNat) else none
    | _, _ => none

instance : JsonForm Int64 where
  encode n := .int n.toInt
  decodeAt?
    | _, .int n =>
      if Int64.minValue.toInt ≤ n && n ≤ Int64.maxValue.toInt then some (.ofInt n) else none
    | _, _ => none

def decodeAll? {α : Type} [JsonForm α] (p : Standing) : List Json → Option (List α)
  | [] => some []
  | j :: rest => do return (← decodeAt? p j) :: (← decodeAll? p rest)

instance {α : Type} [JsonForm α] : JsonForm (List α) where
  encode as := .arr (as.map encode)
  decodeAt?
    | p, .arr items => decodeAll? p items
    | _, _ => none

/-- Absent values are null. -/
instance {α : Type} [JsonForm α] : JsonForm (Option α) where
  encode
    | some a => encode a
    | none => .null
  decodeAt?
    | _, .null => some none
    | p, j => (decodeAt? p j).map some

/-! ## Records -/

/-- The known parts of a record. -/
structure Members where
  entries : List (String × Json)
  /-- given by position and not by key -/
  positional : Bool
  standing : Standing

/-- The parts of a record with these keys; others are ignored. -/
def members? (keys : List String) (p : Standing) : Json → Option Members
  | .obj members =>
    let known := members.filter (·.1 ∈ keys)
    if (known.map Prod.fst).Nodup then some ⟨known, false, p⟩ else none
  | .arr items => if items.length ≤ keys.length then some ⟨keys.zip items, true, p⟩ else none
  | _ => none

/-- The parts of a record that has no other keys. -/
def closedMembers? (keys : List String) (p : Standing) : Json → Option Members
  | .obj members =>
    if members.all (·.1 ∈ keys) then members? keys p (.obj members) else none
  | j => members? keys p j

namespace Members

variable {α : Type} [JsonForm α]

def required? (m : Members) (key : String) : Option α := do
  decodeAt? m.standing (← m.entries.lookup key)

/-- A part that may be left out. -/
def getD? (m : Members) (key : String) (default : α) : Option α :=
  match m.entries.lookup key with
  | some j => decodeAt? m.standing j
  | none => some default

/-- A part that may be absent; only a record by position has to say so. -/
def optional? (m : Members) (key : String) : Option (Option α) :=
  match m.entries.lookup key with
  | some j => decodeAt? m.standing j
  | none => if m.positional then none else some none

end Members

/-! ## Variants -/

/-- A payload, which is null if there is none. Every payload that is an object has parts, so an
empty one can stand for none as well. -/
def payload : Standing → Json → Json
  | .within, .obj [] => .null
  | _, j => j

/-- Name and payload of a variant. -/
def variant? (p : Standing) : Json → Option (String × Json)
  | .str name => some (name, .null)
  | .obj [(name, j)] => some (name, payload p j)
  | _ => none

/-- One of some values, by name. -/
def named? {α : Type} (all : List α) (text : α → String) (p : Standing) (j : Json) : Option α :=
  match variant? p j with
  | some (name, .null) => all.find? (text · = name)
  | _ => none

def variant (name : String) (payload : Json) : Json := .obj [(name, payload)]

/-- The case that a tag gives: one of some names, or its position among them. -/
def case? (names : List String) : Standing → Json → Option String
  | _, .str name => some name
  | .within, .int (.ofNat n) => names[n]?
  | _, _ => none

/-- Name and parts of a tagged variant with these cases. -/
def tagged? (tag : String) (names : List String) (p : Standing) : Json → Option (String × Json)
  | .obj members =>
    match members.filter (·.1 = tag) with
    | [(_, j)] => (case? names p j).map (·, .obj (members.filter (·.1 ≠ tag)))
    | _ => none
  | .arr (j :: rest) => (case? names p j).map (·, .arr rest)
  | _ => none

def tagged (tag name : String) (parts : List (String × Json)) : Json :=
  .obj ((tag, .str name) :: parts)

/-- A value that was read as a whole before its parts were looked at, `outer` levels deep in the
text: it nests at most 127 levels, and its strings and numbers have values. -/
def isBuffered (outer : Nat) (j : Json) : Bool := j.isSound && outer + j.depth < 128

end Json

end Refuter
