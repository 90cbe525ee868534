import Refuter.Json.Number

/-!
Tokens of JSON text: punctuation marks and scalar values.

The text is strict: no comments, no leading zeros, no control characters within strings.
-/

namespace Refuter.Json

inductive Token where
  /-- one of the six punctuation marks -/
  | mark (c : Char)
  | scalar (j : Json)
  deriving Inhabited

def isBlank (c : Char) : Bool := c = ' ' || c = '\t' || c = '\n' || c = '\r'

def isMark (c : Char) : Bool :=
  c = '\x7b' || c = '\x7d' || c = '[' || c = ']' || c = ':' || c = ','

/-! ## Strings -/

/-- The unit that four hexadecimal digits stand for. -/
def unit? (a b c d : Char) : Option Nat := Numeral.natOfHex? [a, b, c, d]

def isHighSurrogate (n : Nat) : Bool := 0xD800 ≤ n && n < 0xDC00

def isLowSurrogate (n : Nat) : Bool := 0xDC00 ≤ n && n < 0xE000

/-- The character of a surrogate pair. -/
def pairChar (high low : Nat) : Char :=
  Char.ofNat (0x10000 + (high - 0xD800) * 0x400 + (low - 0xDC00))

/-- The character after a backslash, other than `u`. -/
def simpleEscape? : Char → Option Char
  | '"' => some '"'
  | '\\' => some '\\'
  | '/' => some '/'
  | 'b' => some '\x08'
  | 'f' => some '\x0c'
  | 'n' => some '\n'
  | 'r' => some '\r'
  | 't' => some '\t'
  | _ => none

/-- A string under construction: its characters in reverse, unless it is broken. -/
abbrev Draft := Option (List Char)

def Draft.push (d : Draft) (c : Char) : Draft := d.map (c :: ·)

def Draft.json : Draft → Json
  | some cs => .str (String.ofList cs.reverse)
  | none => .broken

/-- Reads a string after its opening quote; gives the value and the text after it. -/
def string? (d : Draft) : List Char → Option (Json × List Char)
  | [] => none
  | '"' :: rest => some (d.json, rest)
  | '\\' :: 'u' :: a :: b :: c :: e :: '\\' :: 'u' :: a' :: b' :: c' :: e' :: rest => do
    let first ← unit? a b c e
    let second ← unit? a' b' c' e'
    if isHighSurrogate first then
      string? (if isLowSurrogate second then d.push (pairChar first second) else none) rest
    else if isLowSurrogate first then
      string? none ('\\' :: 'u' :: a' :: b' :: c' :: e' :: rest)
    else string? (d.push (Char.ofNat first)) ('\\' :: 'u' :: a' :: b' :: c' :: e' :: rest)
  | '\\' :: 'u' :: a :: b :: c :: e :: rest => do
    let unit ← unit? a b c e
    if isHighSurrogate unit || isLowSurrogate unit then string? none rest
    else string? (d.push (Char.ofNat unit)) rest
  | '\\' :: c :: rest => do string? (d.push (← simpleEscape? c)) rest
  | c :: rest => if c.toNat < 32 || c = '\\' then none else string? (d.push c) rest
termination_by cs => cs.length

/-! ## Tokens -/

/-- The text after a word, if it starts with it. -/
def after? : (word text : List Char) → Option (List Char)
  | [], text => some text
  | _ :: _, [] => none
  | c :: word, d :: text => if c = d then after? word text else none

/-- Reads one token. -/
def token? : List Char → Option (Token × List Char)
  | [] => none
  | '"' :: rest => (string? (some []) rest).map fun (j, rest) => (.scalar j, rest)
  | '-' :: rest => (unsigned? true rest).map fun (j, rest) => (.scalar j, rest)
  | 'n' :: rest => (after? ['u', 'l', 'l'] rest).map (.scalar .null, ·)
  | 't' :: rest => (after? ['r', 'u', 'e'] rest).map (.scalar (.bool true), ·)
  | 'f' :: rest => (after? ['a', 'l', 's', 'e'] rest).map (.scalar (.bool false), ·)
  | c :: rest =>
    if isMark c then some (.mark c, rest)
    else (unsigned? false (c :: rest)).map fun (j, rest) => (.scalar j, rest)

/-- Reads tokens to the end, at most one for each step, in reverse after `read`. -/
def tokensAux (read : List Token) : (steps : Nat) → List Char → Option (List Token)
  | _, [] => some read
  | 0, _ :: _ => none
  | steps + 1, c :: rest =>
    if isBlank c then tokensAux read steps rest
    else
      match token? (c :: rest) with
      | some (t, rest) => tokensAux (t :: read) steps rest
      | none => none

/-- The tokens of a text. Every token takes a character, so there are no more than those. -/
def tokens? (text : String) : Option (List Token) :=
  let cs := text.toList
  (tokensAux [] cs.length cs).map List.reverse

end Refuter.Json
