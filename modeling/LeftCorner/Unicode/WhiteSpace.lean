import LeftCorner.Unicode.Ranges

/-!
# White space

The characters with the property White_Space.
-/

namespace LeftCorner.Unicode

/-- The code points with the property White_Space. -/
def whiteSpace : Ranges := [
  (0x9, 0xD), (0x20, 0x20), (0x85, 0x85), (0xA0, 0xA0), (0x1680, 0x1680), (0x2000, 0x200A),
  (0x2028, 0x2029), (0x202F, 0x202F), (0x205F, 0x205F), (0x3000, 0x3000)]

/-- Whether a character separates words: blanks, line ends, and the spaces of all scripts. -/
def isWhiteSpace (c : Char) : Bool := whiteSpace.contains c.toNat

example : isWhiteSpace ' ' ∧ isWhiteSpace '\n' ∧ isWhiteSpace '\u3000' ∧ ¬ isWhiteSpace '\u200b' := by
  decide


end LeftCorner.Unicode
