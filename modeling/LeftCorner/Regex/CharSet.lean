import LeftCorner.Unicode.CaseFolding
import LeftCorner.Unicode.WhiteSpace
import LeftCorner.Unicode.Word

/-!
# Sets of characters

What one element of a regular expression may match. Digits, white space and word characters are those
of all scripts; where a pattern asks for the ASCII ones they are spelt as ranges.
-/

namespace LeftCorner

inductive CharSet where
  | none
  | range (lo hi : Char)
  | digit
  | space
  | word
  | alphabetic
  | union (a b : CharSet)
  | inter (a b : CharSet)
  | compl (a : CharSet)
  /-- A set with the case variants of its members. -/
  | anyCase (a : CharSet)
deriving DecidableEq

namespace CharSet

def contains : CharSet → Char → Bool
  | none, _ => false
  | range lo hi, c => lo ≤ c && c ≤ hi
  | digit, c => Unicode.isDecimalDigit c
  | space, c => Unicode.isWhiteSpace c
  | word, c => Unicode.isWord c
  | alphabetic, c => Unicode.isAlphabetic c
  | union a b, c => a.contains c || b.contains c
  | inter a b, c => a.contains c && b.contains c
  | compl a, c => !a.contains c
  | anyCase a, c => (Unicode.caseVariants c).any fun d => a.contains d

@[simp] theorem contains_union {a b : CharSet} {c : Char} :
    (union a b).contains c = (a.contains c || b.contains c) := rfl

@[simp] theorem contains_inter {a b : CharSet} {c : Char} :
    (inter a b).contains c = (a.contains c && b.contains c) := rfl

@[simp] theorem contains_compl {a : CharSet} {c : Char} :
    (compl a).contains c = !a.contains c := rfl

def single (c : Char) : CharSet := range c c

def all : CharSet := compl none

def ascii : CharSet := range '\x00' '\x7f'

def diff (a b : CharSet) : CharSet := inter a (compl b)

def symmDiff (a b : CharSet) : CharSet := union (diff a b) (diff b a)

def ofList : List CharSet → CharSet
  | [] => none
  | [a] => a
  | a :: rest => union a (ofList rest)

/-- The ASCII characters that a named class such as `alpha` has. -/
def asciiClass? : String → Option CharSet
  | "alnum" => some (ofList [range '0' '9', range 'A' 'Z', range 'a' 'z'])
  | "alpha" => some (union (range 'A' 'Z') (range 'a' 'z'))
  | "ascii" => some ascii
  | "blank" => some (union (single '\t') (single ' '))
  | "cntrl" => some (union (range '\x00' '\x1f') (single '\x7f'))
  | "digit" => some (range '0' '9')
  | "graph" => some (range '!' '~')
  | "lower" => some (range 'a' 'z')
  | "print" => some (range ' ' '~')
  | "punct" => some (ofList [range '!' '/', range ':' '@', range '[' (Char.ofNat 0x60), range '\x7b' '~'])
  | "space" => some (union (range '\t' '\r') (single ' '))
  | "upper" => some (range 'A' 'Z')
  | "word" => some (ofList [range '0' '9', range 'A' 'Z', single '_', range 'a' 'z'])
  | "xdigit" => some (ofList [range '0' '9', range 'A' 'F', range 'a' 'f'])
  | _ => Option.none

end CharSet

end LeftCorner
