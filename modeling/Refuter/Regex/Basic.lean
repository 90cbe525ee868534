/-!
Regular expressions and where they occur in a text.

An expression is matched over positions: from one position it gives all positions where a match can
end. Which of several matches is preferred does not matter here.
-/

namespace Refuter

/-- A set of characters. -/
inductive CharSet where
  | none
  | range (first last : Char)
  | union (a b : CharSet)
  | common (a b : CharSet)
  | complement (a : CharSet)
  /-- with the other case of each letter -/
  | anyCase (a : CharSet)
  deriving DecidableEq, Repr, Inhabited

namespace CharSet

def has : CharSet → Char → Bool
  | none, _ => false
  | range first last, c => first ≤ c && c ≤ last
  | union a b, c => a.has c || b.has c
  | common a b, c => a.has c && b.has c
  | complement a, c => !a.has c
  | anyCase a, c => a.has c || a.has c.toLower || a.has c.toUpper

def one (c : Char) : CharSet := range c c

/-- The characters from the first to the second of each pair. -/
def ofRanges (pairs : List (Char × Char)) : CharSet :=
  pairs.foldr (fun (a, b) rest => union (range a b) rest) none

def difference (a b : CharSet) : CharSet := common a (complement b)

/-- Drops the characters of the set at both ends. -/
def trim (set : CharSet) (cs : List Char) : List Char :=
  ((cs.dropWhile set.has).reverse.dropWhile set.has).reverse

def digit : CharSet := range '0' '9'

def space : CharSet :=
  ofRanges [('\t', '\r'), (' ', ' '), ('\u0085', '\u0085'), ('\u00a0', '\u00a0'),
    ('\u1680', '\u1680'), ('\u2000', '\u200a'), ('\u2028', '\u2029'), ('\u202f', '\u202f'),
    ('\u205f', '\u205f'), ('\u3000', '\u3000')]

/-- ASCII letters, ASCII digits and the underscore. -/
def word : CharSet := ofRanges [('0', '9'), ('A', 'Z'), ('_', '_'), ('a', 'z')]

/-- The set is built of ASCII characters alone. -/
def isAscii : CharSet → Bool
  | none => true
  | range _ last => last.toNat < 128
  | union a b => a.isAscii && b.isAscii
  | common a b => a.isAscii || b.isAscii
  | complement _ => false
  | anyCase a => a.isAscii

/-- Rough number of states of an automaton over bytes that reads one of the characters. -/
def states : CharSet → Nat
  | range first last =>
    if first = last then first.utf8Size else if last.toNat < 128 then 2 else 31
  | a => if a.isAscii then 3 else 31

end CharSet

/-- A condition on the words beside a position. -/
inductive WordEdge where
  | first | last
  | either | neither
  /-- no word ends here -/
  | noneBefore
  /-- no word starts here -/
  | noneAfter
  deriving DecidableEq, Repr, Inhabited

/-- The condition holds if there are characters of words before and after the position. -/
def WordEdge.holds (before after : Bool) : WordEdge → Bool
  | first => !before && after
  | last => before && !after
  | either => before != after
  | neither => before == after
  | noneBefore => !before
  | noneAfter => !after

/-- A condition on a position of a text. -/
inductive Boundary where
  | textStart | textEnd
  /-- Lines end with a line feed; with `returns` also with a carriage return, or with both. -/
  | lineStart (returns : Bool)
  | lineEnd (returns : Bool)
  | word (edge : WordEdge)
  deriving DecidableEq, Repr, Inhabited

/-- The condition holds between two characters, which are missing at the ends of the text. -/
def Boundary.holds (before after : Option Char) : Boundary → Bool
  | textStart => before.isNone
  | textEnd => after.isNone
  | lineStart returns =>
    before.all fun c => c = '\n' || (returns && c = '\r' && !after.any (· = '\n'))
  | lineEnd returns =>
    after.all fun c =>
      if returns then c = '\r' || (c = '\n' && !before.any (· = '\r')) else c = '\n'
  | word edge => edge.holds (before.any CharSet.word.has) (after.any CharSet.word.has)

inductive Regex where
  | empty
  | char (set : CharSet)
  | boundary (b : Boundary)
  | seq (a b : Regex)
  | alt (a b : Regex)
  /-- at least and at most so many times -/
  | times (r : Regex) (least : Nat) (most : Option Nat)
  deriving DecidableEq, Repr, Inhabited

namespace Regex

/-- No match has a character. -/
def isBlank : Regex → Bool
  | empty | boundary _ => true
  | char _ => false
  | seq a b | alt a b => a.isBlank && b.isBlank
  | times r _ _ => r.isBlank

/-- Repeats an expression. Once is enough for one whose matches have no characters. -/
def repeated (r : Regex) (least : Nat) (most : Option Nat) : Regex :=
  let (least, most) := if r.isBlank then (min least 1, some (most.elim 1 (min · 1)))
    else (least, most)
  if most = some 0 then empty else times r least most

/-- Rough number of states of an automaton over bytes for the expression. -/
def states : Regex → Nat
  | empty | boundary _ => 1
  | char set => set.states
  | seq a b => a.states + b.states
  | alt a b => a.states + b.states + 1
  | times r least none => r.states * max least 1 + 1
  | times r least (some most) => r.states * least + (r.states + 1) * (most - least)

/-- Positions after exactly so many steps. -/
def after (step : Nat → List Nat) : (count : Nat) → List Nat → List Nat
  | 0, places => places
  | _, [] => []
  | count + 1, places => after step count (places.flatMap step).eraseDups

/-- Positions after at most so many steps. -/
def within (step : Nat → List Nat) : (count : Nat) → List Nat → List Nat
  | 0, places => places
  | count + 1, places => within step count (places ++ places.flatMap step).eraseDups

/-- Positions where a match from a position can end. A repetition reaches all of its positions in
as many rounds as the text has characters. -/
def ends (text : Array Char) : Regex → Nat → List Nat
  | empty, i => [i]
  | char set, i => if text[i]?.any set.has then [i + 1] else []
  | boundary b, i =>
    let before := if i = 0 then none else text[i - 1]?
    if b.holds before text[i]? then [i] else []
  | seq a b, i => ((ends text a i).flatMap (ends text b)).eraseDups
  | alt a b, i => (ends text a i ++ ends text b i).eraseDups
  | times r least most, i =>
    let rounds := match most with
      | some n => min (n - least) text.size
      | none => text.size
    within (ends text r) rounds (after (ends text r) least [i])

/-- The expression matches somewhere in the text. -/
def occursIn (r : Regex) (text : String) : Bool :=
  let text := text.toList.toArray
  (List.range (text.size + 1)).any fun i => !(ends text r i).isEmpty

end Regex

end Refuter
