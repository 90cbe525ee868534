/-!
Values of TOML text.

A table keeps its entries in order, and keeps a key that is given twice. It also keeps how it was
written, since not every table may stand for a name.
-/

namespace Refuter.Toml

inductive Value where
  | text (s : String)
  /-- an integer of 64 bits with a sign -/
  | int (n : Int)
  | bool (b : Bool)
  /-- a float or a date, which is known to be well formed and no more -/
  | other
  | arr (items : List Value)
  /-- a table in braces -/
  | inline (entries : List (String × Value))
  /-- a table that dotted keys fill -/
  | dotted (entries : List (String × Value))
  /-- a table that headers open -/
  | opened (entries : List (String × Value))
  deriving Inhabited, Repr

abbrev Entries := List (String × Value)

/-- What a text holds. -/
structure Document where
  entries : Entries
  /-- the last part of the header, if the text is one header and nothing else -/
  loneHeader? : Option String := none

namespace Value

def bool? : Value → Option Bool
  | bool b => some b
  | _ => none

def text? : Value → Option String
  | text s => some s
  | _ => none

def natural? : Value → Option UInt64
  | int n => if 0 ≤ n then some (.ofNat n.toNat) else none
  | _ => none

/-- A name, alone or as the key of an empty table. For a table that headers open it is the last
part of the header, which must be all there is. -/
def name? (d : Document) : Value → Option String
  | text s => some s
  | inline [(name, inline [])] => some name
  | opened _ => d.loneHeader?
  | _ => none

/-- The parts of a record with these keys and no others: a table, or an array that gives them by
position. -/
def record? (keys : List String) : Value → Option Entries
  | inline entries | dotted entries | opened entries =>
    if entries.all (·.1 ∈ keys) && (entries.map Prod.fst).Nodup then some entries else none
  | arr items => if items.length ≤ keys.length then some (keys.zip items) else none
  | _ => none

end Value

/-- The value of a key, which may be left out. -/
def Entries.getD? {α : Type} (entries : Entries) (key : String) (default : α)
    (read : Value → Option α) : Option α :=
  match entries.lookup key with
  | some v => read v
  | none => some default

end Refuter.Toml
