import LeftCorner.Unicode.Shown

/-!
# Quoted text

A text is quoted by writing it between double quotes, with `\"` and `\\` for a quote and a backslash within
it, short escapes for the usual control characters, and the code point in braces for all other characters
that do not show.
-/

namespace LeftCorner.Text.Quoted

def hex (n : Nat) : String := String.ofList (Nat.toDigits 16 n)

/-- How a character is written within quotes. -/
def escape (c : Char) : String :=
  if c = '\x00' then "\\0"
  else if c = '\t' then "\\t"
  else if c = '\r' then "\\r"
  else if c = '\n' then "\\n"
  else if c = '\\' ∨ c = '"' then "\\" ++ c.toString
  else if Unicode.isShown c then c.toString
  else "\\u\x7b" ++ hex c.toNat ++ "\x7d"

def encode (s : String) : String := "\"" ++ String.join (s.toList.map escape) ++ "\""

example : encode "a\"b'\t" = "\"a\\\"b'\\t\"" := by decide

example : encode "\x7f" = "\"\\u\x7b7f\x7d\"" := by decide

def encodeList (ss : List String) : String := "[" ++ ", ".intercalate (ss.map encode) ++ "]"

end LeftCorner.Text.Quoted
