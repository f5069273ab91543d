import LeftCorner.Regex.CharSet

/-!
# Flags of a regular expression

Flags change what the text after them means: `(?i)` until the group around it ends, `(?i:…)` inside its
own group. A text read under the flag `x` may have blanks and comments between its parts.
-/

namespace LeftCorner.Regex

inductive Fault where
  | unclosedGroup
  | unopenedGroup
  | lookAround
  | groupName
  | flags
  | nothingToRepeat
  | repetition
  | backReference
  | escape
  | codePoint
  | boundary
  | unclosedClass
  | classRange
  | classMember
  /-- What the text asks for could match part of a character. -/
  | partOfCharacter
  /-- Groups, classes and repetitions are nested too deeply. -/
  | nesting
  /-- The counted repetitions multiply to too much. -/
  | tooLarge
deriving DecidableEq

def Fault.message : Fault → String
  | unclosedGroup => "unclosed group"
  | unopenedGroup => "unopened group"
  | lookAround => "look-around, including look-ahead and look-behind, is not supported"
  | groupName => "invalid capture group name"
  | flags => "invalid flags"
  | nothingToRepeat => "repetition operator missing expression"
  | repetition => "invalid repetition count"
  | backReference => "backreferences are not supported"
  | escape => "unrecognized escape sequence"
  | codePoint => "invalid code point"
  | boundary => "invalid word boundary assertion"
  | unclosedClass => "unclosed character class"
  | classRange => "invalid character class range"
  | classMember => "invalid escape sequence found in character class"
  | partOfCharacter => "pattern can match invalid UTF-8"
  | nesting => "exceeds the maximum number of nested parts"
  | tooLarge => "compiled expression exceeds the size limit"

/-- The flags in force at a place of a text. -/
structure Flags where
  ignoreCase : Bool := false
  multiLine : Bool := false
  dotAll : Bool := false
  crlf : Bool := false
  verbose : Bool := false
  unicode : Bool := true

inductive Flag where
  | ignoreCase
  | multiLine
  | dotAll
  /-- Swaps greedy and lazy repetition, which find the same texts. -/
  | swapGreed
  | crlf
  | verbose
  | unicode
deriving DecidableEq

def Flag.ofChar? : Char → Option Flag
  | 'i' => some ignoreCase
  | 'm' => some multiLine
  | 's' => some dotAll
  | 'U' => some swapGreed
  | 'u' => some unicode
  | 'R' => some crlf
  | 'x' => some verbose
  | _ => none

namespace Flags

def set (f : Flags) (on : Bool) : Flag → Flags
  | .ignoreCase => { f with ignoreCase := on }
  | .multiLine => { f with multiLine := on }
  | .dotAll => { f with dotAll := on }
  | .swapGreed => f
  | .crlf => { f with crlf := on }
  | .verbose => { f with verbose := on }
  | .unicode => { f with unicode := on }

/-- Drops leading blanks and comments, where a comment runs from `#` to the end of its line. -/
def skipBlanks (inComment : Bool) : List Char → List Char
  | [] => []
  | c :: rest =>
    if inComment then skipBlanks (c != '\n') rest
    else if Unicode.isWhiteSpace c then skipBlanks false rest
    else if c = '#' then skipBlanks true rest
    else c :: rest

/-- Drops leading blanks and comments where the flags allow for them. -/
def skip (f : Flags) (s : List Char) : List Char :=
  if f.verbose then skipBlanks false s else s

/-- Takes up to `n` leading characters that are accepted, and the blanks after each. -/
def takeWhile (f : Flags) (accept : Char → Bool) : Nat → List Char → List Char × List Char
  | n + 1, c :: rest =>
    if accept c then
      let (taken, rest) := f.takeWhile accept n (f.skip rest)
      (c :: taken, rest)
    else
      ([], c :: rest)
  | _, s => ([], s)

/-- A set as it is meant under the flags: with case variants where case does not matter. -/
def close (f : Flags) (set : CharSet) : CharSet :=
  if f.ignoreCase then
    if f.unicode then .anyCase set else .inter .ascii (.anyCase set)
  else
    set

/-- The complement of a set, unless that would match parts of characters. -/
def complement (f : Flags) (set : CharSet) : Except Fault CharSet :=
  if f.unicode then .ok (.compl set) else .error .partOfCharacter

def literal (f : Flags) (c : Char) : CharSet :=
  if f.unicode || c.toNat < 128 then f.close (.single c) else .single c

def dot (f : Flags) : Except Fault CharSet :=
  if !f.unicode then .error .partOfCharacter
  else if f.dotAll then .ok .all
  else if f.crlf then .ok (.compl (.union (.single '\r') (.single '\n')))
  else .ok (.compl (.single '\n'))

/-- The settings that a flag group makes, up to and without the character that closes them, and whether
there are any. -/
def settings (f : Flags) (seen : List Flag) (negated dangling : Bool) :
    List Char → Except Fault (Flags × Bool × List Char)
  | [] => .error .flags
  | c :: rest =>
    if c = ':' ∨ c = ')' then
      if dangling then .error .flags else .ok (f, !seen.isEmpty, c :: rest)
    else if c = '-' then
      if negated then .error .flags else settings f seen true true rest
    else match Flag.ofChar? c with
      | some flag =>
        if flag ∈ seen then .error .flags
        else settings (f.set (!negated) flag) (flag :: seen) negated false rest
      | none => .error .flags

end Flags

end LeftCorner.Regex
