/-!
Numbers written in digits, and the range of 64 bit floats.
-/

namespace Refuter.Numeral

def hexValue? (c : Char) : Option Nat :=
  if c.isDigit then some (c.toNat - 48)
  else if 'a' ≤ c && c ≤ 'f' then some (c.toNat - 87)
  else if 'A' ≤ c && c ≤ 'F' then some (c.toNat - 55)
  else none

/-- The number that hexadecimal digits stand for. -/
def natOfHex? (ds : List Char) : Option Nat :=
  ds.foldlM (fun n d => (hexValue? d).map (n * 16 + ·)) 0

def natOfDigits (ds : List Char) : Nat := ds.foldl (fun n d => n * 10 + (d.toNat - 48)) 0

/-- Splits off the leading digits. -/
def digits (cs : List Char) : List Char × List Char :=
  (cs.takeWhile Char.isDigit, cs.dropWhile Char.isDigit)

/-- The smallest size that no longer rounds to a finite 64 bit float. -/
def floatBound : Nat := 1 <<< 1024 - 1 <<< 970

/-- The number `mantissa * 10 ^ exponent` rounds to a finite 64 bit float. -/
def isFinite (mantissa : Nat) (exponent : Int) : Bool :=
  if mantissa = 0 then true
  else if exponent > 400 then false
  else if exponent ≥ 0 then mantissa * Nat.pow 10 exponent.toNat < floatBound
  else mantissa < floatBound * Nat.pow 10 (min exponent.natAbs 20000)

/-- The multiple of `unit` next to a number; of two, the even one. -/
def nearestMultiple (unit n : Nat) : Nat :=
  let low := n / unit
  let twice := 2 * (n % unit)
  if twice < unit then low * unit
  else if unit < twice then (low + 1) * unit
  else (low + low % 2) * unit

/-- The number with 53 significant bits next to `n`, as 64 bit floats hold them. -/
def nearestFloat (n : Nat) : Nat := nearestMultiple (1 <<< (n.log2 - 52)) n

end Refuter.Numeral
