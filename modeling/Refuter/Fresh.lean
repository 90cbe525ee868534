/-!
Supply of fresh numbers.

Numbers are handed out in increasing order, so a number is fresh as long as it is at least the
next one. The counter has 64 bits; that it would wrap around after 2^64 numbers is left out.
-/

namespace Refuter

/-- A computation that may take fresh numbers; the state is the next number. -/
abbrev Fresh := StateM Nat

/-- Takes the next number. -/
def Fresh.next : Fresh Nat := fun n => (n, n + 1)

end Refuter
