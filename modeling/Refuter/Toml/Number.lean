import Refuter.Toml.Token
import Refuter.Toml.Value

/-!
Numbers and dates of TOML text.

Only integers have a value here; a float or a date is known to be well formed and no more.
-/

namespace Refuter.Toml

def digitValue? (radix : Nat) (c : Char) : Option Nat :=
  (Numeral.hexValue? c).filter (· < radix)

/-- Progress over the digits of an integer. -/
structure Digits where
  /-- digits so far, without underscores, in reverse -/
  read : List Char := []
  leadingZero : Bool := false
  /-- the last character was an underscore -/
  underscore : Bool := false

/-- Reads digits, which single underscores may divide. Gives the digits and the text after them;
there must be one, and an underscore stands between two. -/
def digits? (radix : Nat) (leadingZeros : Bool) (d : Digits) :
    List Char → Option (List Char × List Char)
  | c :: rest =>
    if c = '0' && d.read.isEmpty then
      digits? radix leadingZeros { d with read := [c], leadingZero := true } rest
    else if (digitValue? radix c).isSome then
      if d.leadingZero && !leadingZeros then none
      else digits? radix leadingZeros { d with read := c :: d.read, underscore := false } rest
    else if c = '_' && (d.read.isEmpty || d.underscore) then
      if d.read.isEmpty then none else finish d (c :: rest)
    else if c = '_' then digits? radix leadingZeros { d with underscore := true } rest
    else finish d (c :: rest)
  | [] => finish d []
where
  finish (d : Digits) (rest : List Char) : Option (List Char × List Char) :=
    if d.read.isEmpty || d.underscore then none else some (d.read.reverse, rest)

/-- Splits off a sign; gives whether it is a minus. -/
def sign : List Char → Bool × List Char
  | '-' :: rest => (true, rest)
  | '+' :: rest => (false, rest)
  | rest => (false, rest)

/-- The integer that a whole word stands for, if 64 bits can hold it. -/
def integer? (radix : Nat) (word : List Char) : Option Value := do
  let (negative, word) := if radix = 10 then sign word else (false, word)
  let (ds, rest) ← digits? radix (radix ≠ 10) {} word
  if !rest.isEmpty then none
  let n := ds.foldl (fun n c => n * radix + (digitValue? radix c).getD 0) 0
  let value : Int := if negative then -n else n
  if Int64.minValue.toInt ≤ value && value ≤ Int64.maxValue.toInt then some (.int value) else none

/-- The exponent that a word gives, which is digits alone unless it may have a sign. -/
def exponent? (signed : Bool) (word : List Char) : Option Int := do
  let (negative, word) := if signed then sign word else (false, word)
  let (ds, rest) ← digits? 10 true {} word
  if !rest.isEmpty then none
  let n : Int := Numeral.natOfDigits ds
  return if negative then -n else n

def isExponentMark (c : Char) : Bool := c = 'e' || c = 'E'

/-- The exponent after the digits of a float. The letter alone goes on with the next words. -/
def floatEnd? (suffix : List Char) (tokens : List Token) : Option (Int × List Token) :=
  match suffix with
  | [] => some (0, tokens)
  | c :: cs =>
    if !isExponentMark c then none
    else if !cs.isEmpty then (exponent? true cs).map (·, tokens)
    else
      match tokens with
      | .plus :: .word w :: rest | .word w :: rest => (exponent? false w.toList).map (·, rest)
      | _ => none

/-- A float: its whole part is a word, and its places another one. It must be finite. -/
def float? (word : List Char) (places : Option (List Char)) (tokens : List Token) :
    Option (Value × List Token) := do
  let (whole, suffix) ← digits? 10 false {} (sign word).2
  let (places, suffix) ← match places with
    | none => some ([], suffix)
    | some places => if suffix.isEmpty then digits? 10 true {} places else none
  let (exponent, rest) ← floatEnd? suffix tokens
  if Numeral.isFinite (Numeral.natOfDigits (whole ++ places)) (exponent - places.length) then
    return (.other, rest)
  else none

/-- A number that starts with a word. -/
def number? (word : List Char) (tokens : List Token) : Option (Value × List Token) :=
  match word with
  | '0' :: 'x' :: ds => (integer? 16 ds).map (·, tokens)
  | '0' :: 'o' :: ds => (integer? 8 ds).map (·, tokens)
  | '0' :: 'b' :: ds => (integer? 2 ds).map (·, tokens)
  | _ =>
    if word.any isExponentMark then float? word none tokens
    else
      match tokens with
      | .period :: .word places :: rest => float? word (some places.toList) rest
      | .period :: _ => none
      | tokens =>
        if ["inf", "-inf", "nan", "-nan"].contains (String.ofList word) then
          some (.other, tokens)
        else (integer? 10 word).map (·, tokens)

/-- Skips a word that must be there. -/
def afterWord? : List Token → Option (List Token)
  | .word _ :: rest => some rest
  | _ => none

/-- Skips the rest of a time after the colon that follows its hours. -/
def afterMinutes? (tokens : List Token) : Option (List Token) := do
  match ← afterWord? tokens with
  | .colon :: rest =>
    let rest ← afterWord? rest
    let rest ← match rest with
      | .period :: rest => afterWord? rest
      | rest => some rest
    let rest ← match rest with
      | .plus :: rest => afterWord? rest
      | rest => some rest
    match rest with
    | .colon :: rest => afterWord? rest
    | rest => some rest
  | _ => none

/-- A date that starts with a word, and perhaps a time after it. -/
def date? (tokens : List Token) : Option (Value × List Token) := do
  let tokens := match tokens with
    | .blank " " :: .word _ :: rest => rest
    | tokens => tokens
  match tokens with
  | .colon :: rest => return (.other, ← afterMinutes? rest)
  | tokens => return (.other, tokens)

/-- The word looks like a date. -/
def isDate (word : List Char) : Bool :=
  word.contains 'T' || word.contains 't' ||
    ((word.drop 1).contains '-' && !hasPair 'e' word && !hasPair 'E' word)
where
  /-- the letter stands before a dash -/
  hasPair (e : Char) : List Char → Bool
    | c :: d :: rest => c = e && d = '-' || hasPair e (d :: rest)
    | _ => false

/-- A number or date that starts with a word. -/
def numberOrDate? (word : List Char) (tokens : List Token) : Option (Value × List Token) :=
  if isDate word then date? tokens
  else
    match tokens with
    | .colon :: rest => (afterMinutes? rest).map (.other, ·)
    | tokens => number? word tokens

end Refuter.Toml
