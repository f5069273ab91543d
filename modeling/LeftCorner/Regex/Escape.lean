import LeftCorner.Regex.Flags
import LeftCorner.Regex.Look

/-!
# Escapes in a regular expression

What a backslash makes of the characters after it: a character that cannot be written or would mean
something else, a class such as `\d`, or a look such as `\b`.
-/

namespace LeftCorner.Regex

/-- What a single element stands for. -/
inductive Atom where
  | literal (c : Char)
  | set (set : CharSet)
  | look (look : Look)

namespace Escape

def hexDigit? (c : Char) : Option Nat :=
  if '0' ≤ c ∧ c ≤ '9' then some (c.toNat - '0'.toNat)
  else if 'a' ≤ c ∧ c ≤ 'f' then some (c.toNat - 'a'.toNat + 10)
  else if 'A' ≤ c ∧ c ≤ 'F' then some (c.toNat - 'A'.toNat + 10)
  else none

/-- The number that hexadecimal digits write, most significant first. -/
def hexNumber? : List Char → Option Nat :=
  List.foldlM (fun n c => (hexDigit? c).map (n * 16 + ·)) 0

def char? (n : Nat) : Option Char := if n.isValidChar then some (Char.ofNat n) else none

/-- How many digits a code point has after each of the letters that announce one. -/
def hexLength : Char → Nat
  | 'x' => 2
  | 'u' => 4
  | _ => 8

/-- A code point by number, in braces or with as many digits as the letter before it asks for. -/
def codePoint (f : Flags) (letter : Char) (s : List Char) : Except Fault (Atom × List Char) :=
  match f.skip s with
  | '{' :: rest =>
    let rest := f.skip rest
    match f.takeWhile (· != '}') rest.length rest with
    | (d :: ds, _ :: rest) =>
      match (hexNumber? (d :: ds)).bind char? with
      | some c => .ok (.literal c, f.skip rest)
      | none => .error .codePoint
    | _ => .error .codePoint
  | s =>
    let (digits, rest) := f.takeWhile (fun c => (hexDigit? c).isSome) (hexLength letter) s
    match (hexNumber? digits).bind char? with
    | some c =>
      if digits.length < hexLength letter then .error .codePoint
      else if letter = 'x' && c.toNat > 127 && !f.unicode then .error .partOfCharacter
      else .ok (.literal c, rest)
    | none => .error .codePoint

/-- The class that a lower-case letter names. -/
def class? (f : Flags) : Char → Option CharSet
  | 'd' => some (if f.unicode then .digit else .range '0' '9')
  | 's' => some (if f.unicode then .space else .union (.range '\t' '\r') (.single ' '))
  | 'w' =>
    some (if f.unicode then .word
      else .ofList [.range '0' '9', .range 'A' 'Z', .single '_', .range 'a' 'z'])
  | _ => none

/-- The set of a property by its name, in which case, blanks, hyphens and underscores do not count. -/
def property? (name : List Char) : Option CharSet :=
  let kept := (name.filter fun c => c != ' ' && c != '-' && c != '_').map Char.toLower
  if kept = "any".toList then some .all
  else if kept = "ascii".toList then some .ascii
  else if kept = "alphabetic".toList then some .alphabetic
  else if kept = "whitespace".toList then some .space
  else if kept = "nd".toList ∨ kept = "decimalnumber".toList then some .digit
  else none

def property (f : Flags) (negated : Bool) (s : List Char) : Except Fault (Atom × List Char) :=
  match f.skip s with
  | '{' :: rest =>
    let rest := f.skip rest
    let (name, rest) := f.takeWhile (· != '}') rest.length rest
    match property? name, rest with
    | some set, _ :: rest =>
      if !f.unicode then .error .partOfCharacter
      else .ok (.set (if negated then .compl (f.close set) else f.close set), rest)
    | _, _ => .error .escape
  | _ => .error .escape

/-- A word boundary, which may say in braces which half or side of a word it is. Braces that do not hold
a word are left for a repetition count. -/
def boundary (f : Flags) (kind : WordKind) : List Char → Except Fault (Atom × List Char)
  | '{' :: rest =>
    let isNamePart (c : Char) : Bool := c.isAlpha || c == '-'
    let inside := f.skip rest
    match f.takeWhile isNamePart inside.length inside with
    | ([], []) => .error .boundary
    | ([], _) => .ok (.look (.boundary kind), '{' :: rest)
    | (name, '}' :: rest) =>
      if name = "start".toList then .ok (.look (.wordStart kind), rest)
      else if name = "end".toList then .ok (.look (.wordEnd kind), rest)
      else if name = "start-half".toList then .ok (.look (.wordStartHalf kind), rest)
      else if name = "end-half".toList then .ok (.look (.wordEndHalf kind), rest)
      else .error .boundary
    | _ => .error .boundary
  | s => .ok (.look (.boundary kind), s)

/-- The control character that a letter stands for. -/
def control? : Char → Option Char
  | 'a' => some '\x07'
  | 'f' => some '\x0c'
  | 't' => some '\t'
  | 'n' => some '\n'
  | 'r' => some '\r'
  | 'v' => some '\x0b'
  | _ => none

/-- What the characters after a backslash stand for. -/
def read (f : Flags) : List Char → Except Fault (Atom × List Char)
  | [] => .error .escape
  | c :: rest =>
    let kind : WordKind := if f.unicode then .unicode else .ascii
    if c.isDigit then .error .backReference
    else if c = 'x' ∨ c = 'u' ∨ c = 'U' then codePoint f c rest
    else if c = 'p' then property f false rest
    else if c = 'P' then property f true rest
    else if c = 'b' then boundary f kind rest
    else if c = 'B' then .ok (.look (.notBoundary kind), rest)
    else if c = '<' then .ok (.look (.wordStart kind), rest)
    else if c = '>' then .ok (.look (.wordEnd kind), rest)
    else if c = 'A' then .ok (.look .textStart, rest)
    else if c = 'z' then .ok (.look .textEnd, rest)
    else match class? f c, class? f c.toLower, control? c with
      | some set, _, _ => .ok (.set set, rest)
      | none, some set, _ => (f.complement set).map fun set => (.set set, rest)
      | none, none, some c => .ok (.literal c, rest)
      | none, none, none =>
        if c.toNat < 128 && !c.isAlphanum then .ok (.literal c, rest) else .error .escape

end Escape

end LeftCorner.Regex
