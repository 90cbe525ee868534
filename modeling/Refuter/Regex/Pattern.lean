import Refuter.Regex.Basic

/-!
Regular expressions as they are written, and what they stand for.

No tables of scripts are kept: which characters beyond ASCII are letters, digits or blanks, and
which is the other case of which, is not known. An expression that asks for it stands for nothing.
This concerns the short names of sets, the edges of words and characters of any case, unless the
expression restricts itself to ASCII; then its sets may not reach beyond.
-/

namespace Refuter.Regex

/-- What an expression can switch on and off. -/
inductive Flag where
  | anyCase
  /-- the ends of lines count as ends of the text -/
  | lines
  /-- a dot stands for the ends of lines too -/
  | dotAll
  /-- a carriage return ends a line too -/
  | returns
  /-- short matches come first -/
  | shortFirst
  /-- sets of characters reach beyond ASCII -/
  | allScripts
  /-- blanks and comments do not count -/
  | spaced
  deriving DecidableEq, Repr, Inhabited

/-- Flags in the order of the text, each switched on or off. -/
abbrev Changes := List (Flag × Bool)

/-- The flags that are on. -/
abbrev Mode := List Flag

namespace Mode

def start : Mode := [.allScripts]

def change (m : Mode) (changes : Changes) : Mode :=
  changes.foldl (fun m (flag, on) => if on then flag :: m else m.filter (· ≠ flag)) m

def isOn (m : Mode) (flag : Flag) : Bool := m.contains flag

/-- The characters of a set, in any case if the mode asks for it. -/
def cased? (m : Mode) (set : CharSet) : Option CharSet :=
  if !m.isOn .anyCase then some set
  else if m.isOn .allScripts then none
  else some (.anyCase set)

/-- The set, or all other characters. -/
def signed? (m : Mode) (negated : Bool) (set : CharSet) : Option CharSet :=
  if !negated then some set
  else if m.isOn .allScripts then some (.complement set)
  else none

end Mode

/-- A single character. -/
structure Literal where
  char : Char
  /-- written as two hexadecimal digits, which give a byte where only ASCII is meant -/
  isByte : Bool := false
  deriving DecidableEq, Repr, Inhabited

def Literal.isAscii (l : Literal) : Bool := l.char.toNat < 128

/-- The short name of a set. -/
inductive Shorthand where
  | digit | space | word
  deriving DecidableEq, Repr, Inhabited

def Shorthand.set : Shorthand → CharSet
  | digit => .digit
  | space => .ofRanges [('\t', '\r'), (' ', ' ')]
  | word => .word

def Shorthand.set? (m : Mode) (s : Shorthand) (negated : Bool) : Option CharSet :=
  if m.isOn .allScripts then none else m.signed? negated s.set

/-! ## Classes -/

/-- What stands between brackets. -/
inductive Class where
  | range (first last : Literal)
  | shorthand (s : Shorthand) (negated : Bool)
  | named (set : CharSet) (negated : Bool)
  | nested (negated : Bool) (c : Class)
  | union (members : List Class)
  | common (a b : Class)
  | difference (a b : Class)
  /-- in one of the two alone -/
  | oneOf (a b : Class)
  deriving Repr, Inhabited

namespace Class

/-- Members that stand beside each other. -/
def ofMembers : List Class → Class
  | [c] => c
  | cs => union cs

mutual

def set? (m : Mode) : Class → Option CharSet
  | range first last =>
    if m.isOn .allScripts || (first.isAscii && last.isAscii) then
      m.cased? (.range first.char last.char)
    else none
  | shorthand s negated => s.set? m negated
  | named set negated => do m.signed? negated (← m.cased? set)
  | nested negated c => do m.signed? negated (← c.set? m)
  | union members => unionSet? m members
  | common a b => do return .common (← a.set? m) (← b.set? m)
  | difference a b => do return .difference (← a.set? m) (← b.set? m)
  | oneOf a b => do
    let a ← a.set? m
    let b ← b.set? m
    return .union (.difference a b) (.difference b a)

def unionSet? (m : Mode) : List Class → Option CharSet
  | [] => some .none
  | [c] => c.set? m
  | c :: cs => do return .union (← c.set? m) (← unionSet? m cs)

end

mutual

/-- How deep brackets and operators are nested. -/
def depth : Class → Nat
  | range _ _ | shorthand _ _ | named _ _ => 0
  | nested _ c => c.depth + 1
  | union [] => 0
  | union members => deepest members + 1
  | common a b | difference a b | oneOf a b => max a.depth b.depth + 1

def deepest : List Class → Nat
  | [] => 0
  | c :: cs => max c.depth (deepest cs)

end

end Class

/-! ## Patterns -/

/-- An expression as it is written. -/
inductive Pattern where
  | literal (l : Literal)
  | dot
  | textStart | textEnd
  | lineStart | lineEnd
  | edge (e : WordEdge)
  | shorthand (s : Shorthand) (negated : Bool)
  | bracketed (negated : Bool) (c : Class)
  | times (p : Pattern) (least : Nat) (most : Option Nat)
  | group (name? : Option String) (changes : Changes) (p : Pattern)
  /-- flags for what follows in the same group -/
  | changes (c : Changes)
  | seq (parts : List Pattern)
  | alt (branches : List Pattern)
  deriving Repr, Inhabited

namespace Pattern

/-- Parts that stand beside each other. -/
def ofParts : List Pattern → Pattern
  | [p] => p
  | ps => seq ps

def isChange : Pattern → Bool
  | changes _ => true
  | _ => false

mutual

/-- What a pattern stands for in a mode, and the mode after it. -/
def regex? (m : Mode) : Pattern → Option (Regex × Mode)
  | literal l =>
    if l.isByte && !l.isAscii && !m.isOn .allScripts then none
    else do return (.char (← m.cased? (.one l.char)), m)
  | dot =>
    let excluded := if m.isOn .dotAll then .none
      else if m.isOn .returns then .union (.one '\n') (.one '\r') else .one '\n'
    do return (.char (← m.signed? true excluded), m)
  | textStart => some (.boundary .textStart, m)
  | textEnd => some (.boundary .textEnd, m)
  | lineStart =>
    some (.boundary (if m.isOn .lines then .lineStart (m.isOn .returns) else .textStart), m)
  | lineEnd => some (.boundary (if m.isOn .lines then .lineEnd (m.isOn .returns) else .textEnd), m)
  | edge e => if m.isOn .allScripts then none else some (.boundary (.word e), m)
  | shorthand s negated => do return (.char (← s.set? m negated), m)
  | bracketed negated c => do return (.char (← m.signed? negated (← c.set? m)), m)
  | times p least most => do return ((← p.regex? m).1.repeated least most, m)
  | group _ inner p => do return ((← p.regex? (m.change inner)).1, m)
  | changes c => some (.empty, m.change c)
  | seq parts => seqRegex? m parts
  | alt branches => altRegex? m branches

def seqRegex? (m : Mode) : List Pattern → Option (Regex × Mode)
  | [] => some (.empty, m)
  | [p] => p.regex? m
  | p :: ps => do
    let (first, m) ← p.regex? m
    let (rest, m) ← seqRegex? m ps
    return (.seq first rest, m)

def altRegex? (m : Mode) : List Pattern → Option (Regex × Mode)
  | [] => some (.empty, m)
  | [p] => p.regex? m
  | p :: ps => do
    let (first, m) ← p.regex? m
    let (rest, m) ← altRegex? m ps
    return (.alt first rest, m)

end

mutual

/-- How deep the parts of a pattern are nested. -/
def depth : Pattern → Nat
  | bracketed _ c => c.depth + 1
  | times p _ _ | group _ _ p => p.depth + 1
  | seq [] => 0
  | seq ps | alt ps => deepest ps + 1
  | _ => 0

def deepest : List Pattern → Nat
  | [] => 0
  | p :: ps => max p.depth (deepest ps)

end

mutual

/-- Names of the groups. -/
def names : Pattern → List String
  | times p _ _ => p.names
  | group name? _ p => name?.toList ++ p.names
  | seq ps | alt ps => namesOf ps
  | _ => []

def namesOf : List Pattern → List String
  | [] => []
  | p :: ps => p.names ++ namesOf ps

end

/-- The deepest nesting that is accepted. -/
def depthLimit : Nat := 250

/-- The largest automaton that is accepted: ten mebibytes at 32 bytes for each state. -/
def stateLimit : Nat := 10 * 1024 * 1024 / 32

/-- What a whole pattern stands for. Names may not be used twice, and there are limits on its
nesting and on its size. -/
def meaning? (p : Pattern) : Option Regex := do
  let (r, _) ← p.regex? .start
  if p.depth ≤ depthLimit && r.states ≤ stateLimit && p.names.eraseDups.length = p.names.length
  then some r else none

end Pattern

end Refuter.Regex
