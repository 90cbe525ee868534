import Refuter.Json.Basic
import Refuter.Numeral

/-!
Numbers of JSON text.

A number that is no integer of 64 bits is scaled from its leading digits, as many as 64 bits hold,
by a power of ten. Both factors are rounded before they are multiplied, so that near the largest
float the result can leave the range while the number itself does not.
-/

namespace Refuter.Json

open Numeral (digits natOfDigits)

/-- Digits of a number as an integer of 64 bits, and the power of ten that belongs to it. -/
structure Scaled where
  digits : Nat := 0
  exponent : Int := 0

namespace Scaled

/-- Appends digits to a number as long as 64 bits hold it; gives the digits that are left. -/
def append (n : Nat) : List Char → Nat × List Char
  | [] => (n, [])
  | d :: ds =>
    let next := n * 10 + (d.toNat - 48)
    if next < UInt64.size then append next ds else (n, d :: ds)

/-- The digits before the point. Each one that is left out counts in the exponent. -/
def ofWhole (whole : List Char) : Scaled :=
  let (n, left) := append 0 whole
  ⟨n, left.length⟩

/-- Goes on with the digits after the point. Those that are left out do not count. -/
def withPlaces (s : Scaled) (places : List Char) : Scaled :=
  let (n, left) := append s.digits places
  ⟨n, s.exponent - (places.length - left.length : Nat)⟩

/-- The product of the two rounded factors is a finite 64 bit float. -/
def isFinite (s : Scaled) : Bool :=
  if s.exponent < 0 then true
  else if s.exponent ≤ 308 then
    Numeral.nearestFloat s.digits * Numeral.nearestFloat (Nat.pow 10 s.exponent.toNat)
      < Numeral.floatBound
  else s.digits = 0

end Scaled

/-! ## Text -/

/-- The exponent of a number, if it has one, and the text after it. -/
def exponent? : List Char → Option (Option Int × List Char)
  | c :: rest =>
    if c = 'e' || c = 'E' then
      let (negative, rest) := match rest with
        | '-' :: rest => (true, rest)
        | '+' :: rest => (false, rest)
        | rest => (false, rest)
      match digits rest with
      | ([], _) => none
      | (ds, rest) =>
        let n : Int := natOfDigits ds
        some (some (if negative then -n else n), rest)
    else some (none, c :: rest)
  | [] => some (none, [])

/-- The digits after the point, if there is one, and the text after them. -/
def fraction? : List Char → Option (Option (List Char) × List Char)
  | '.' :: rest =>
    match digits rest with
    | ([], _) => none
    | (ds, rest) => some (some ds, rest)
  | rest => some (none, rest)

/-- Value of an integer literal. It is an integer if 64 bits can hold it; minus zero is not. -/
def integer (negative : Bool) (whole : List Char) : Json :=
  let n := natOfDigits whole
  if negative then
    if n = 0 || n > UInt64.size / 2 then .real (Scaled.ofWhole whole).isFinite else .int (-n)
  else if n < UInt64.size then .int n
  else .real (Scaled.ofWhole whole).isFinite

/-- Reads a number after its sign. -/
def unsigned? (negative : Bool) (cs : List Char) : Option (Json × List Char) := do
  let (whole, rest) := digits cs
  match whole with
  | [] => none
  | '0' :: _ :: _ => none
  | _ =>
    let (places, rest) ← fraction? rest
    let (exponent, rest) ← exponent? rest
    match places, exponent with
    | none, none => some (integer negative whole, rest)
    | places, exponent =>
      let scaled := (Scaled.ofWhole whole).withPlaces (places.getD [])
      let scaled := { scaled with exponent := scaled.exponent + exponent.getD 0 }
      some (.real scaled.isFinite, rest)

end Refuter.Json
