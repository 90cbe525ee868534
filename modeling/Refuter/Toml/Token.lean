import Refuter.Json.Token

/-!
Tokens of TOML text.
-/

namespace Refuter.Toml

inductive Token where
  | blank (text : String)
  | newline
  | comment
  | equals
  | period
  | comma
  | colon
  | plus
  | openBrace
  | closeBrace
  | openBracket
  | closeBracket
  /-- a run of letters, digits, dashes and underscores -/
  | word (text : String)
  | str (text : String) (multiline : Bool)
  deriving DecidableEq, Repr, Inhabited

def isBlank (c : Char) : Bool := c = ' ' || c = '\t'

def isWordChar (c : Char) : Bool := c.isAlphanum || c = '-' || c = '_'

/-- Characters that a comment runs over. -/
def isCommentChar (c : Char) : Bool := c = '\t' || 32 ≤ c.toNat

/-- Characters that stand for themselves in a string. -/
def isPlainChar (c : Char) : Bool := c = '\t' || (32 ≤ c.toNat && c.toNat ≠ 127)

def markOf : Char → Option Token
  | '\n' => some .newline
  | '=' => some .equals
  | '.' => some .period
  | ',' => some .comma
  | ':' => some .colon
  | '+' => some .plus
  | '\x7b' => some .openBrace
  | '\x7d' => some .closeBrace
  | '[' => some .openBracket
  | ']' => some .closeBracket
  | _ => none

/-- A carriage return before a line feed belongs to it. -/
def foldLines : List Char → List Char
  | '\r' :: '\n' :: rest => '\n' :: foldLines rest
  | c :: rest => c :: foldLines rest
  | [] => []

/-! ## Strings -/

/-- The character with a given code point. -/
def charOf? (n : Nat) : Option Char := if n.isValidChar then some (Char.ofNat n) else none

/-- The character that `count` hexadecimal digits name, and the text after them. -/
def hexChar? (count : Nat) (cs : List Char) : Option (Char × List Char) :=
  let ds := cs.take count
  if ds.length = count then do return (← charOf? (← Numeral.natOfHex? ds), cs.drop count) else none

/-- The character of an escape, and the text after it. -/
def escape? : List Char → Option (Char × List Char)
  | 'u' :: rest => hexChar? 4 rest
  | 'U' :: rest => hexChar? 8 rest
  | '/' :: _ => none
  | c :: rest => (Json.simpleEscape? c).map (·, rest)
  | [] => none

/-- The text after a backslash that ends a line: blank lines and indentation are skipped. -/
def continuation? (cs : List Char) : Option (List Char) :=
  match cs.dropWhile isBlank with
  | '\n' :: rest => some (rest.dropWhile fun c => isBlank c || c = '\n')
  | [] => some []
  | _ => none

/-- Splits off a number of quotes, at most `limit`. -/
def leadingQuotes (quote : Char) (limit : Nat) (cs : List Char) : List Char × List Char :=
  let n := ((cs.take limit).takeWhile (· = quote)).length
  (cs.take n, cs.drop n)

/-- Reads a string of several lines after its opening quotes, at most one character for each
step; `read` holds its characters in reverse. Three quotes end it, and up to two more right after
them belong to it. -/
def longString? (quote : Char) (read : List Char) :
    (steps : Nat) → List Char → Option (String × List Char)
  | 0, _ => none
  | _, [] => none
  | steps + 1, c :: rest =>
    if c = quote then
      match rest with
      | d :: e :: rest' =>
        if d = quote && e = quote then
          let (extra, rest) := leadingQuotes quote 2 rest'
          some (String.ofList (read.reverse ++ extra), rest)
        else longString? quote (c :: read) steps rest
      | _ => longString? quote (c :: read) steps rest
    else if c = '\n' then longString? quote (c :: read) steps rest
    else if c = '\\' && quote = '"' then
      match rest with
      | d :: _ =>
        if isBlank d || d = '\n' then (continuation? rest).bind (longString? quote read steps)
        else (escape? rest).bind fun (e, rest) => longString? quote (e :: read) steps rest
      | [] => none
    else if isPlainChar c then longString? quote (c :: read) steps rest
    else none

/-- Reads a string of one line after its opening quote. -/
def shortString? (quote : Char) (read : List Char) :
    (steps : Nat) → List Char → Option (String × List Char)
  | 0, _ => none
  | _, [] => none
  | steps + 1, c :: rest =>
    if c = quote then some (String.ofList read.reverse, rest)
    else if c = '\\' && quote = '"' then
      (escape? rest).bind fun (e, rest) => shortString? quote (e :: read) steps rest
    else if isPlainChar c then shortString? quote (c :: read) steps rest
    else none

/-- Reads a string after its first quote. -/
def string? (quote : Char) (cs : List Char) : Option (Token × List Char) :=
  let steps := cs.length + 1
  match cs with
  | c :: d :: rest =>
    if c = quote && d = quote then
      -- a line break right after the opening quotes is not part of the string
      let body := match rest with
        | '\n' :: rest => rest
        | rest => rest
      (longString? quote [] steps body).map fun (s, rest) => (.str s true, rest)
    else (shortString? quote [] steps cs).map fun (s, rest) => (.str s false, rest)
  | _ => (shortString? quote [] steps cs).map fun (s, rest) => (.str s false, rest)

/-! ## Tokens -/

def token? (cs : List Char) : Option (Token × List Char) :=
  match cs with
  | [] => none
  | c :: rest =>
    match markOf c with
    | some t => some (t, rest)
    | none =>
      if isBlank c then some (.blank (String.ofList (cs.takeWhile isBlank)), cs.dropWhile isBlank)
      else if c = '#' then some (.comment, rest.dropWhile isCommentChar)
      else if c = '"' || c = '\'' then string? c rest
      else if isWordChar c then
        some (.word (String.ofList (cs.takeWhile isWordChar)), cs.dropWhile isWordChar)
      else none

/-- Reads tokens to the end, at most one for each step, in reverse after `read`. -/
def tokensAux (read : List Token) : (steps : Nat) → List Char → Option (List Token)
  | _, [] => some read
  | 0, _ :: _ => none
  | steps + 1, c :: rest =>
    match token? (c :: rest) with
    | some (t, rest) => tokensAux (t :: read) steps rest
    | none => none

/-- The tokens of a text; a byte order mark at its start is skipped. -/
def tokens? (text : String) : Option (List Token) :=
  let cs := foldLines text.toList
  let cs := match cs with
    | '\ufeff' :: rest => rest
    | cs => cs
  (tokensAux [] cs.length cs).map List.reverse

end Refuter.Toml
