import Refuter.Toml.Number

/-!
Reading TOML text.

The text is a list of sections, each with a header and entries. Sections are put together by their
headers: a table may be opened once, and an array of tables holds one table for each of its
headers.
-/

namespace Refuter.Toml

/-! ## Entries -/

/-- Changes the first entry with a key. -/
def updateFirst? (key : String) (f : Value → Option Value) : Entries → Option Entries
  | [] => none
  | (k, v) :: rest =>
    if k = key then (f v).map fun v => (k, v) :: rest
    else (updateFirst? key f rest).map ((k, v) :: ·)

/-- Adds a value under a dotted key. A part before the last must be new or a table that dotted
keys fill. -/
def addDotted? (key : List String) (v : Value) (entries : Entries) : Option Entries :=
  match key with
  | [] => none
  | [k] => some (entries ++ [(k, v)])
  | k :: rest =>
    if entries.any (·.1 = k) then
      updateFirst? k (fun
        | .dotted inner => (addDotted? rest v inner).map .dotted
        | _ => none) entries
    else (addDotted? rest v []).map fun inner => entries ++ [(k, .dotted inner)]

/-! ## Values -/

def skipBlank : List Token → List Token
  | .blank _ :: rest => rest
  | tokens => tokens

/-- Skips blanks, comments and line ends. -/
def skipLines : List Token → List Token
  | .blank _ :: rest | .newline :: rest | .comment :: rest => skipLines rest
  | tokens => tokens

def key? : List Token → Option (String × List Token)
  | .word k :: rest => some (k, rest)
  | .str k false :: rest => some (k, rest)
  | _ => none

/-- Reads a dotted key, at most one part for each step, and the blanks after it. -/
def dottedKey? : (steps : Nat) → List Token → Option (List String × List Token)
  | 0, _ => none
  | steps + 1, tokens => do
    let (k, tokens) ← key? tokens
    match skipBlank tokens with
    | .period :: rest =>
      let (ks, rest) ← dottedKey? steps (skipBlank rest)
      return (k :: ks, rest)
    | rest => return ([k], rest)

mutual

/-- Reads a value, at most one token for each step. -/
def value? : (steps : Nat) → List Token → Option (Value × List Token)
  | 0, _ => none
  | steps + 1, tokens =>
    match tokens with
    | .str s _ :: rest => some (.text s, rest)
    | .word "true" :: rest => some (.bool true, rest)
    | .word "false" :: rest => some (.bool false, rest)
    | .word w :: rest =>
      let starts := w.toList.head?.any fun c => c = '-' || c.isDigit
      if starts || w = "inf" || w = "nan" then numberOrDate? w.toList rest else none
    | .plus :: .word w :: rest => number? w.toList rest
    | .openBracket :: rest => array? [] steps rest
    | .openBrace :: rest =>
      match skipBlank rest with
      | .closeBrace :: rest => some (.inline [], rest)
      | rest => inlineTable? [] steps rest
    | _ => none

/-- Reads the items of an array after those in `items`, which are in reverse. -/
def array? (items : List Value) : (steps : Nat) → List Token → Option (Value × List Token)
  | 0, _ => none
  | steps + 1, tokens =>
    match skipLines tokens with
    | .closeBracket :: rest => some (.arr items.reverse, rest)
    | tokens => do
      let (v, tokens) ← value? steps tokens
      match skipLines tokens with
      | .comma :: rest => array? (v :: items) steps rest
      | .closeBracket :: rest => some (.arr (v :: items).reverse, rest)
      | _ => none

/-- Reads the entries of an inline table after those given. -/
def inlineTable? (entries : Entries) : (steps : Nat) → List Token → Option (Value × List Token)
  | 0, _ => none
  | steps + 1, tokens => do
    let (key, tokens) ← dottedKey? steps tokens
    match tokens with
    | .equals :: rest =>
      let (v, rest) ← value? steps (skipBlank rest)
      let entries ← addDotted? key v entries
      match skipBlank rest with
      | .closeBrace :: rest => some (.inline entries, rest)
      | .comma :: rest => inlineTable? entries steps (skipBlank rest)
      | _ => none
    | _ => none

end

/-! ## Sections -/

structure Section where
  header : List String := []
  /-- the header adds a table to an array -/
  isItem : Bool := false
  entries : Entries := []

/-- Skips the rest of a line, which may be a comment. -/
def endLine? (tokens : List Token) : Option (List Token) :=
  match skipBlank tokens with
  | [] => some []
  | .newline :: rest => some rest
  | .comment :: rest => some rest
  | _ => none

/-- Reads a header after its opening bracket. -/
def header? (steps : Nat) (tokens : List Token) : Option (Section × List Token) := do
  let (isItem, tokens) := match tokens with
    | .openBracket :: rest => (true, rest)
    | rest => (false, rest)
  let (header, tokens) ← dottedKey? steps (skipBlank tokens)
  match isItem, tokens with
  | false, .closeBracket :: rest => return ({ header, isItem }, ← endLine? rest)
  | true, .closeBracket :: .closeBracket :: rest => return ({ header, isItem }, ← endLine? rest)
  | _, _ => none

/-- Reads sections, at most one line for each step. `done` holds the sections before the current
one in reverse. -/
def sections? (done : List Section) (current : Section) :
    (steps : Nat) → List Token → Option (List Section)
  | 0, _ => none
  | steps + 1, tokens =>
    match skipLines tokens with
    | [] => some (current :: done).reverse
    | .openBracket :: rest => do
      let (next, rest) ← header? steps rest
      sections? (current :: done) next steps rest
    | tokens => do
      let (key, tokens) ← dottedKey? steps tokens
      match tokens with
      | .equals :: rest =>
        let (v, rest) ← value? steps (skipBlank rest)
        let entries ← addDotted? key v current.entries
        sections? done { current with entries } steps (← endLine? rest)
      | _ => none

/-! ## Tables -/

/-- The section with its header shortened by the first part. -/
def Section.inner (s : Section) : Section := { s with header := s.header.drop 1 }

/-- Sections below the key `k`, with shortened headers. -/
def below (k : String) (sections : List Section) : List Section :=
  (sections.filter (·.header.head? = some k)).map Section.inner

/-- First parts of the headers, each once. -/
def firstKeys (sections : List Section) : List String :=
  (sections.filterMap (·.header.head?)).eraseDups

/-- Groups the sections of an array of tables: each item with the sections after it. -/
def groups : List Section → List (List Section)
  | [] => []
  | s :: rest =>
    match groups rest with
    | [] => [[s]]
    | g :: gs =>
      match g with
      | next :: _ => if next.isItem && next.header.isEmpty then [s] :: g :: gs else (s :: g) :: gs
      | [] => [s] :: gs

/-- The item section opens its own table. -/
def openItem : List Section → List Section
  | s :: rest => { s with isItem := false } :: rest
  | [] => []

/-- Puts sections together to a table. Headers are at most `levels` long. -/
def table? (levels : Nat) (sections : List Section) : Option Entries :=
  match sections.filter (·.header.isEmpty) with
  | [] => children? levels sections []
  | [own] => if own.isItem then none else children? levels sections own.entries
  | _ => none
where
  /-- Adds the tables below each first key. -/
  children? (levels : Nat) (sections : List Section) (own : Entries) : Option Entries :=
    match levels with
    | 0 => if (firstKeys sections).isEmpty then some own else none
    | levels + 1 => do
      let tables ← (firstKeys sections).mapM fun k => do
        let inner := below k sections
        match inner with
        | first :: _ =>
          if first.isItem && first.header.isEmpty then
            let items ← (groups inner).mapM fun g => table? levels (openItem g)
            return (k, Value.arr (items.map .opened))
          else return (k, Value.opened (← table? levels inner))
        | [] => none
      return own ++ tables

/-- The last part of the header, if the text is one header and nothing else. -/
def loneHeader? : List Section → Option String
  | [top, only] =>
    if top.entries.isEmpty && only.entries.isEmpty then only.header.getLast? else none
  | _ => none

def parse? (text : String) : Option Document := do
  let tokens ← tokens? text
  let sections ← sections? [] {} (tokens.length + 1) tokens
  let entries ← table? ((sections.map (·.header.length)).foldl max 0) sections
  return { entries, loneHeader? := loneHeader? sections }

end Refuter.Toml
