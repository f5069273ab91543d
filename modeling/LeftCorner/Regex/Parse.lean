import LeftCorner.Regex.Class
import LeftCorner.Regex.Piece

/-!
# Reading regular expressions

`Regex.parse` reads the text of a regular expression: `|`, `( )`, `(?: )`, `(?<name> )`, flags, `* + ?`,
counted and lazy repetitions, classes, escapes, `.`, `^` and `$`. There is no look-around and there are no
back-references, so that matching needs no search.
-/

namespace LeftCorner.Regex

/-- A group as far as it has been read: its finished branches and the elements of the branch being read,
each last first. A setting of flags is an element that matches nothing and cannot be repeated. -/
structure Draft where
  branches : List Piece
  elements : List (Option Piece)

namespace Draft

def start : Draft := ⟨[], []⟩

def branch (d : Draft) : Piece := .sequence (d.elements.reverse.map (·.getD .empty))

def split (d : Draft) : Draft := ⟨d.branch :: d.branches, []⟩

def push (d : Draft) (p : Piece) : Draft := { d with elements := some p :: d.elements }

def pushSettings (d : Draft) : Draft := { d with elements := none :: d.elements }

def result (d : Draft) : Piece :=
  match d.branches.reverse with
  | [] => d.branch
  | p :: ps => .choice p (ps ++ [d.branch])

def repeatLast (d : Draft) (min : Nat) (max : Option Nat) : Except Fault Draft :=
  match d.elements with
  | some p :: rest => .ok { d with elements := some (p.repeated min max) :: rest }
  | _ => .error .nothingToRepeat

end Draft

inductive Header where
  /-- Flags for the rest of the group around. -/
  | settings (flags : Flags)
  /-- A group of its own, read under some flags. -/
  | group (flags : Flags) (captures : Bool)

namespace Parse

/-- Whether a character may stand in the name of a group. -/
def isNamePart (c : Char) : Bool :=
  c == '_' || c == '.' || c == '[' || c == ']' || Unicode.isAlphanumeric c

/-- The name of a group up to `>`, which no other group has. -/
def groupName (names : List (List Char)) (s : List Char) : Except Fault (List Char × List Char) :=
  match s.takeWhile (· != '>'), s.dropWhile (· != '>') with
  | c :: cs, _ :: rest =>
    if (c == '_' || Unicode.isAlphabetic c) && cs.all isNamePart && (c :: cs) ∉ names then
      .ok (c :: cs, rest)
    else
      .error .groupName
  | _, _ => .error .groupName

/-- Reads what makes a group special, with the names of the groups so far. -/
def header (f : Flags) (names : List (List Char)) (s : List Char) :
    Except Fault (Header × List (List Char) × List Char) :=
  match s with
  | '?' :: '=' :: _ | '?' :: '!' :: _ | '?' :: '<' :: '=' :: _ | '?' :: '<' :: '!' :: _ =>
    .error .lookAround
  | '?' :: 'P' :: '<' :: rest | '?' :: '<' :: rest => do
    let (name, rest) ← groupName names rest
    return (.group f true, name :: names, rest)
  | '?' :: rest => do
    let (flags, any, rest) ← f.settings [] false false rest
    match rest with
    | ':' :: rest => return (.group flags false, names, rest)
    | _ :: rest => if any then return (.settings flags, names, rest) else .error .nothingToRepeat
    | [] => .error .unclosedGroup
  | s => .ok (.group f true, names, s)

/-- Drops the mark of a lazy repetition: lazy and greedy ones find the same texts. -/
def dropLazy : List Char → List Char
  | '?' :: rest => rest
  | s => s

/-- The number of a repetition count, unless there are no digits. Blanks may stand around it. -/
def count (f : Flags) (s : List Char) : Except Fault (Option Nat × List Char) :=
  let s := s.dropWhile Unicode.isWhiteSpace
  let (digits, rest) := f.takeWhile Char.isDigit s.length s
  let rest := f.skip (rest.dropWhile Unicode.isWhiteSpace)
  match digits with
  | [] => .ok (none, rest)
  | ds =>
    let n := ds.foldl (fun n c => n * 10 + (c.toNat - '0'.toNat)) 0
    if n ≤ 0xFFFFFFFF then .ok (some n, rest) else .error .repetition

/-- The bounds of a counted repetition, read from behind its opening brace. -/
def counts (f : Flags) (s : List Char) : Except Fault (Nat × Option Nat × List Char) := do
  let (least, rest) ← count f (f.skip s)
  let closing (min : Nat) (max : Option Nat) (rest : List Char) :
      Except Fault (Nat × Option Nat × List Char) :=
    match rest with
    | '}' :: rest => .ok (min, max, dropLazy (f.skip rest))
    | _ => .error .repetition
  match least, rest with
  | some min, ',' :: rest =>
    match f.skip rest with
    | '}' :: rest => closing min none ('}' :: rest)
    | rest => do
      let (most, rest) ← count f rest
      match most with
      | some max => if min ≤ max then closing min (some max) rest else .error .repetition
      | none => .error .repetition
  | some min, rest => closing min (some min) rest
  | none, _ => .error .repetition

def atom (f : Flags) : Atom → Piece
  | .literal c => .chars (f.literal c) 0
  | .set set => .chars set 0
  | .look l => .look l

/-- Reads the rest of a group, up to and without its closing parenthesis, in at most as many steps as
allowed. -/
def group (f : Flags) (names : List (List Char)) (d : Draft) :
    Nat → List Char → Except Fault (Piece × List (List Char) × List Char)
  | 0, _ => .error .unclosedGroup
  | n + 1, s =>
    match f.skip s with
    | [] => .ok (d.result, names, [])
    | ')' :: rest => .ok (d.result, names, ')' :: rest)
    | '|' :: rest => group f names d.split n rest
    | '(' :: rest => do
      let (header, names, rest) ← header f names (f.skip rest)
      match header with
      | .settings flags => group flags names d.pushSettings n rest
      | .group flags captures => do
        let (inside, names, rest) ← group flags names .start n rest
        match rest with
        | _ :: rest => group f names (d.push (inside.group captures)) n rest
        | [] => .error .unclosedGroup
    | '[' :: rest => do
      let (inside, rest) ← Class.read f rest
      group f names (d.push (.chars inside.set inside.depth)) n rest
    | '*' :: rest => do group f names (← d.repeatLast 0 none) n (dropLazy rest)
    | '+' :: rest => do group f names (← d.repeatLast 1 none) n (dropLazy rest)
    | '?' :: rest => do group f names (← d.repeatLast 0 (some 1)) n (dropLazy rest)
    | '{' :: rest => do
      let (min, max, rest) ← counts f rest
      group f names (← d.repeatLast min max) n rest
    | '\\' :: rest => do
      let (a, rest) ← Escape.read f rest
      group f names (d.push (atom f a)) n rest
    | '.' :: rest => do group f names (d.push (.chars (← f.dot) 0)) n rest
    | '^' :: rest =>
      let start := if f.multiLine then if f.crlf then .crlfLineStart else .lineStart else .textStart
      group f names (d.push (.look start)) n rest
    | '$' :: rest =>
      let ending := if f.multiLine then if f.crlf then .crlfLineEnd else .lineEnd else .textEnd
      group f names (d.push (.look ending)) n rest
    | c :: rest => group f names (d.push (.chars (f.literal c) 0)) n rest

end Parse

/-- The greatest depth of a text. -/
def maxDepth : Nat := 250

/-- The greatest space of an automaton, in bytes. -/
def maxCost : Nat := 10 * 1024 * 1024

def parse (s : List Char) : Except Fault Regex := do
  let (piece, _, rest) ← Parse.group {} [] .start (s.length + 1) s
  if rest ≠ [] then .error .unopenedGroup
  else if maxDepth < piece.depth then .error .nesting
  else if maxCost < piece.cost then .error .tooLarge
  else .ok piece.regex

end LeftCorner.Regex
