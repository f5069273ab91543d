/-!
# Sets of code points as ranges

A property of characters is kept as the ascending list of the ranges that have it.
-/

namespace LeftCorner.Unicode

/-- The first and the last code point of each of some ranges, in ascending order. -/
abbrev Ranges := List (Nat × Nat)

/-- Whether a code point is in one of the ranges. The search ends at the first that lies above it. -/
def Ranges.contains : Ranges → Nat → Bool
  | [], _ => false
  | (lo, hi) :: rest, n => if n < lo then false else n ≤ hi || contains rest n

end LeftCorner.Unicode
