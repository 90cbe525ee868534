import Refuter.Numeral
import Refuter.Regex.Pattern

/-!
Reading regular expressions.
-/

namespace Refuter.Regex

/-! ## Blanks -/

/-- Drops blanks and comments, which reach up to the end of their line. -/
def afterBlanks : (inComment : Bool) → List Char → List Char
  | _, [] => []
  | true, c :: cs => afterBlanks (c ≠ '\n') cs
  | false, c :: cs =>
    if c = '#' then afterBlanks true cs
    else if CharSet.space.has c then afterBlanks false cs
    else c :: cs

/-- Drops blanks and comments if they do not count. -/
def skip (spaced : Bool) (cs : List Char) : List Char :=
  if spaced then afterBlanks false cs else cs

/-! ## Escapes -/

def charOfHex? (ds : List Char) : Option Char := do
  let n ← Numeral.natOfHex? ds
  if ds.isEmpty || !n.isValidChar then none else some (Char.ofNat n)

/-- A character by its code: digits in braces, or `count` digits. -/
def hexLiteral? (count : Nat) : List Char → Option (Literal × List Char)
  | '\x7b' :: cs =>
    match cs.dropWhile (· ≠ '\x7d') with
    | _ :: rest => do return (⟨← charOfHex? (cs.takeWhile (· ≠ '\x7d')), false⟩, rest)
    | [] => none
  | cs =>
    if (cs.take count).length = count then do
      return (⟨← charOfHex? (cs.take count), count = 2⟩, cs.drop count)
    else none

/-- Edges of words that a name in braces gives. -/
def namedEdges : List (String × WordEdge) :=
  [("start", .first), ("end", .last), ("start-half", .noneBefore), ("end-half", .noneAfter)]

/-- Reads an edge of a word, after which a name in braces may say which one. What does not start as
a name is left for a repetition. -/
def edge? (spaced : Bool) (cs : List Char) : Option (WordEdge × List Char) :=
  let inName (c : Char) : Bool := c.isAlpha || c = '-'
  match cs with
  | '\x7b' :: inner =>
    let inner := skip spaced inner
    if inner.head?.any inName then do
      let edge ← namedEdges.lookup (String.ofList (inner.takeWhile inName))
      match skip spaced (inner.dropWhile inName) with
      | '\x7d' :: rest => return (edge, rest)
      | _ => none
    else some (.either, cs)
  | _ => some (.either, cs)

/-- Reads an escape after its backslash. Any ASCII sign may be escaped. -/
def escape? (spaced : Bool) : List Char → Option (Pattern × List Char)
  | 'd' :: rest => some (.shorthand .digit false, rest)
  | 'D' :: rest => some (.shorthand .digit true, rest)
  | 's' :: rest => some (.shorthand .space false, rest)
  | 'S' :: rest => some (.shorthand .space true, rest)
  | 'w' :: rest => some (.shorthand .word false, rest)
  | 'W' :: rest => some (.shorthand .word true, rest)
  | 'A' :: rest => some (.textStart, rest)
  | 'z' :: rest => some (.textEnd, rest)
  | 'b' :: rest => (edge? spaced rest).map fun (e, rest) => (.edge e, rest)
  | 'B' :: rest => some (.edge .neither, rest)
  | '<' :: rest => some (.edge .first, rest)
  | '>' :: rest => some (.edge .last, rest)
  | 'a' :: rest => some (.literal ⟨'\x07', false⟩, rest)
  | 'f' :: rest => some (.literal ⟨'\x0c', false⟩, rest)
  | 't' :: rest => some (.literal ⟨'\t', false⟩, rest)
  | 'n' :: rest => some (.literal ⟨'\n', false⟩, rest)
  | 'r' :: rest => some (.literal ⟨'\r', false⟩, rest)
  | 'v' :: rest => some (.literal ⟨'\x0b', false⟩, rest)
  | 'x' :: rest => (hexLiteral? 2 rest).map fun (l, rest) => (.literal l, rest)
  | 'u' :: rest => (hexLiteral? 4 rest).map fun (l, rest) => (.literal l, rest)
  | 'U' :: rest => (hexLiteral? 8 rest).map fun (l, rest) => (.literal l, rest)
  | c :: rest =>
    if c.toNat < 128 && !c.isAlphanum then some (.literal ⟨c, false⟩, rest) else none
  | [] => none

/-! ## Classes in brackets -/

/-- Classes that a name in brackets and colons gives. -/
def namedSets : List (String × CharSet) :=
  [("alnum", .ofRanges [('0', '9'), ('A', 'Z'), ('a', 'z')]),
    ("alpha", .ofRanges [('A', 'Z'), ('a', 'z')]),
    ("ascii", .range '\x00' '\x7f'),
    ("blank", .ofRanges [('\t', '\t'), (' ', ' ')]),
    ("cntrl", .ofRanges [('\x00', '\x1f'), ('\x7f', '\x7f')]),
    ("digit", .digit),
    ("graph", .range '!' '~'),
    ("lower", .range 'a' 'z'),
    ("print", .range ' ' '~'),
    ("punct", .ofRanges [('!', '/'), (':', '@'), ('[', '\x60'), ('\x7b', '~')]),
    ("space", .ofRanges [('\t', '\r'), (' ', ' ')]),
    ("upper", .range 'A' 'Z'),
    ("word", .word),
    ("xdigit", .ofRanges [('0', '9'), ('A', 'F'), ('a', 'f')])]

/-- Reads a named class after its opening bracket. -/
def namedClass? : List Char → Option (Class × List Char)
  | ':' :: cs => do
    let (negated, cs) := match cs with
      | '^' :: cs => (true, cs)
      | cs => (false, cs)
    let set ← namedSets.lookup (String.ofList (cs.takeWhile (· ≠ ':')))
    match cs.dropWhile (· ≠ ':') with
    | ':' :: ']' :: rest => return (.named set negated, rest)
    | _ => none
  | _ => none

/-- A single character as a class. -/
def Class.one (l : Literal) : Class := .range l l

/-- Reads a character or an escape within a class. -/
def classAtom? (spaced : Bool) : List Char → Option (Class × List Char)
  | '\\' :: rest => do
    match ← escape? spaced rest with
    | (.literal l, rest) => return (.one l, rest)
    | (.shorthand s negated, rest) => return (.shorthand s negated, rest)
    | _ => none
  | c :: rest => some (.one ⟨c, false⟩, rest)
  | [] => none

/-- Reads one member of a class: a range, or what is no end of one. -/
def classMember? (spaced : Bool) (cs : List Char) : Option (Class × List Char) := do
  let (first, rest) ← classAtom? spaced cs
  match skip spaced rest with
  | '-' :: after =>
    match skip spaced after with
    | ']' :: _ | '-' :: _ => return (first, '-' :: after)
    | after =>
      match first, ← classAtom? spaced after with
      | .range a _, (.range b _, rest) =>
        if a.char ≤ b.char then return (.range a b, rest) else none
      | _, _ => none
  | rest => return (first, rest)

/-- Reads the members of a class after those in `read`, which are in reverse, at most one for each
step. The left side of an operator is applied to all members up to the next one. -/
def classMembers? (spaced : Bool) (left : Class → Class) (read : List Class) :
    (steps : Nat) → List Char → Option (Class × List Char)
  | 0, _ => none
  | steps + 1, cs =>
    match skip spaced cs with
    | ']' :: rest => some (whole, rest)
    | '&' :: '&' :: rest => classMembers? spaced (.common whole) [] steps rest
    | '-' :: '-' :: rest => classMembers? spaced (.difference whole) [] steps rest
    | '~' :: '~' :: rest => classMembers? spaced (.oneOf whole) [] steps rest
    | '[' :: rest => do
      let (inner, rest) ← match namedClass? rest with
        | some named => some named
        | none => do
          let (negated, c, rest) ← bracketed? steps rest
          some (.nested negated c, rest)
      classMembers? spaced left (inner :: read) steps rest
    | cs => do
      let (member, rest) ← classMember? spaced cs
      classMembers? spaced left (member :: read) steps rest
where
  /-- the class so far -/
  whole : Class := left (.ofMembers read.reverse)
  /-- Reads a class after its opening bracket, and whether it is negated. Dashes at its start, or
  else a closing bracket, are members. -/
  bracketed? (steps : Nat) (cs : List Char) : Option (Bool × Class × List Char) := do
    let (negated, cs) := match skip spaced cs with
      | '^' :: cs => (true, skip spaced cs)
      | cs => (false, cs)
    let (first, cs) : List Class × List Char := match cs with
      | '-' :: rest => ([.one ⟨'-', false⟩], afterDashes steps rest)
      | ']' :: rest => ([.one ⟨']', false⟩], rest)
      | cs => ([], cs)
    let (c, rest) ← classMembers? spaced id first steps cs
    return (negated, c, rest)
  /-- Drops dashes, and blanks between them. -/
  afterDashes (steps : Nat) (cs : List Char) : List Char :=
    match steps, skip spaced cs with
    | steps + 1, '-' :: rest => afterDashes steps rest
    | _, rest => rest

/-! ## Repetitions -/

/-- Reads a number of 32 bits with blanks around it. -/
def count? (cs : List Char) : Option Nat :=
  let ds := CharSet.space.trim cs
  let n := Numeral.natOfDigits ds
  if ds.isEmpty || !ds.all Char.isDigit || UInt32.size ≤ n then none else some n

/-- How often a part is repeated: at least and at most so many times. -/
abbrev Bounds := Nat × Option Nat

/-- Reads counts after their opening brace. -/
def counts? (spaced : Bool) (cs : List Char) : Option (Bounds × List Char) := do
  let inner := (cs.takeWhile (· ≠ '\x7d')).filter fun c => !(spaced && CharSet.space.has c)
  let bounds ← match inner.takeWhile (· ≠ ','), inner.dropWhile (· ≠ ',') with
    | least, [] => (count? least).map fun n => (n, some n)
    | least, [_] => (count? least).map (·, none)
    | least, _ :: most => do
      let least ← count? least
      let most ← count? most
      if least ≤ most then some (least, some most) else none
  match cs.dropWhile (· ≠ '\x7d') with
  | _ :: rest => return (bounds, skip spaced rest)
  | [] => none

def isRepetition (c : Char) : Bool := c = '*' || c = '+' || c = '?' || c = '\x7b'

/-- Reads a repetition. A question mark after it does not matter. -/
def repetition? (spaced : Bool) (cs : List Char) : Option (Bounds × List Char) := do
  let (bounds, rest) ← match cs with
    | '*' :: rest => some ((0, none), rest)
    | '+' :: rest => some ((1, none), rest)
    | '?' :: rest => some ((0, some 1), rest)
    | '\x7b' :: rest => counts? spaced (skip spaced rest)
    | _ => none
  return (bounds, match rest with
    | '?' :: rest => rest
    | rest => rest)

/-! ## Groups -/

/-- How a group starts. -/
inductive Opening where
  | group (name? : Option String) (changes : Changes)
  /-- no group, but flags up to the end of the group around it -/
  | changes (changes : Changes)

def flag? : Char → Option Flag
  | 'i' => some .anyCase
  | 'm' => some .lines
  | 's' => some .dotAll
  | 'R' => some .returns
  | 'U' => some .shortFirst
  | 'u' => some .allScripts
  | 'x' => some .spaced
  | _ => none

/-- Reads flags up to a colon or a closing bracket. Those after a dash are switched off, and none is
given twice. -/
def flags? (on : Bool) (read : Changes) : List Char → Option (Opening × List Char)
  | ':' :: rest => some (.group none read, rest)
  | ')' :: rest => if read.isEmpty then none else some (.changes read, rest)
  | '-' :: c :: rest =>
    if !on || c = ':' || c = ')' then none else flags? false read (c :: rest)
  | c :: rest => do
    let flag ← flag? c
    if read.any (·.1 = flag) then none else flags? on (read ++ [(flag, on)]) rest
  | [] => none

/-- Reads the name of a group up to its closing bracket. -/
def groupName? (cs : List Char) : Option (String × List Char) :=
  let isLetter (c : Char) : Bool := c.isAlpha || c = '_' || 128 ≤ c.toNat
  let inName (c : Char) : Bool := isLetter c || c.isDigit || c = '.' || c = '[' || c = ']'
  match cs.head?.any isLetter, cs.dropWhile inName with
  | true, '>' :: rest => some (String.ofList (cs.takeWhile inName), rest)
  | _, _ => none

/-- Reads the start of a group after its opening bracket. -/
def opening? : List Char → Option (Opening × List Char)
  | '?' :: 'P' :: '<' :: rest | '?' :: '<' :: rest =>
    (groupName? rest).map fun (name, rest) => (.group (some name) [], rest)
  | '?' :: rest => flags? true [] rest
  | rest => some (.group none [], rest)

/-! ## Branches -/

/-- What a single character stands for. -/
def plain : Char → Pattern
  | '.' => .dot
  | '^' => .lineStart
  | '$' => .lineEnd
  | c => .literal ⟨c, false⟩

/-- Whether blanks do not count after changes of flags. -/
def spacedAfter (spaced : Bool) (changes : Changes) : Bool :=
  (changes.lookup .spaced).getD spaced

/-- Reads branches up to the end of a group, at most one part for each step. The branches and the
parts read so far are in reverse. Gives the text from the closing bracket on. -/
def branches? (spaced : Bool) (before parts : List Pattern) :
    (steps : Nat) → List Char → Option (Pattern × List Char)
  | 0, _ => none
  | steps + 1, cs =>
    match skip spaced cs with
    | [] => some (whole, [])
    | ')' :: rest => some (whole, ')' :: rest)
    | '|' :: rest => branches? spaced (branch :: before) [] steps rest
    | '(' :: rest => do
      match ← opening? (skip spaced rest) with
      | (.changes c, rest) =>
        branches? (spacedAfter spaced c) before (.changes c :: parts) steps rest
      | (.group name? c, rest) =>
        match ← branches? (spacedAfter spaced c) [] [] steps rest with
        | (p, ')' :: rest) => branches? spaced before (.group name? c p :: parts) steps rest
        | _ => none
    | '[' :: rest => do
      let (negated, c, rest) ← classMembers?.bracketed? spaced steps rest
      branches? spaced before (.bracketed negated c :: parts) steps rest
    | '\\' :: rest => do
      let (p, rest) ← escape? spaced rest
      branches? spaced before (p :: parts) steps rest
    | c :: rest =>
      if isRepetition c then do
        let ((least, most), rest) ← repetition? spaced (c :: rest)
        match parts with
        | p :: parts =>
          if p.isChange then none
          else branches? spaced before (.times p least most :: parts) steps rest
        | [] => none
      else branches? spaced before (plain c :: parts) steps rest
where
  branch : Pattern := .ofParts parts.reverse
  whole : Pattern := if before.isEmpty then branch else .alt (branch :: before).reverse

/-- The pattern that a text holds. -/
def Pattern.ofText? (text : String) : Option Pattern := do
  let cs := text.toList
  match ← branches? false [] [] (cs.length + 1) cs with
  | (p, []) => some p
  | _ => none

/-- The expression that a text stands for. -/
def ofText? (text : String) : Option Regex := do (← Pattern.ofText? text).meaning?

end Refuter.Regex
