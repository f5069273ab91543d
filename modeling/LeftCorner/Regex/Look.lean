import LeftCorner.Regex.CharSet

/-!
# Conditions on a place in a text

A look matches no characters. It holds or fails at a place by the characters on the two sides of it, of
which one is missing at either end of the text.
-/

namespace LeftCorner

inductive WordKind where
  | unicode
  | ascii
deriving DecidableEq

/-- Whether a side of a place has a word character. -/
def WordKind.touches : WordKind → Option Char → Bool
  | _, none => false
  | unicode, some c => Unicode.isWord c
  | ascii, some c => c.isAlphanum || c == '_'

inductive Look where
  | textStart
  | textEnd
  | lineStart
  | lineEnd
  /-- The start of a line, where a carriage return ends one too. -/
  | crlfLineStart
  /-- The end of a line, where a carriage return ends one too. -/
  | crlfLineEnd
  | boundary (kind : WordKind)
  | notBoundary (kind : WordKind)
  | wordStart (kind : WordKind)
  | wordEnd (kind : WordKind)
  /-- No word character stands before. -/
  | wordStartHalf (kind : WordKind)
  /-- No word character follows. -/
  | wordEndHalf (kind : WordKind)
deriving DecidableEq

def Look.holds (before after : Option Char) : Look → Bool
  | textStart => before == none
  | textEnd => after == none
  | lineStart => before == none || before == some '\n'
  | lineEnd => after == none || after == some '\n'
  | crlfLineStart =>
    before == none || before == some '\n' || before == some '\r' && after != some '\n'
  | crlfLineEnd =>
    after == none || after == some '\r' || after == some '\n' && before != some '\r'
  | boundary k => k.touches before != k.touches after
  | notBoundary k => k.touches before == k.touches after
  | wordStart k => !k.touches before && k.touches after
  | wordEnd k => k.touches before && !k.touches after
  | wordStartHalf k => !k.touches before
  | wordEndHalf k => !k.touches after

end LeftCorner
