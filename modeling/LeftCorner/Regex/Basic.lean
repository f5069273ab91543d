import LeftCorner.Regex.Look

/-!
# Regular expressions

A text of `n` characters has `n + 1` places. A set of places is a list of as many marks. `Regex.reach`
sends the places where a match may begin to those where it may end; a loop adds places until it adds no
more, so the work does not grow with the number of ways in which a text can match.
-/

namespace LeftCorner

inductive Regex where
  | empty
  | chars (set : CharSet)
  | look (look : Look)
  | cat (a b : Regex)
  | alt (a b : Regex)
  /-- At least `min` matches in a row, and at most `max` if there is such a bound. -/
  | repeated (r : Regex) (min : Nat) (max : Option Nat)
deriving DecidableEq

/-- One mark for each place in a text. -/
abbrev Marks := List Bool

namespace Marks

def union (a b : Marks) : Marks := List.zipWith (· || ·) a b

def all (text : List Char) : Marks := List.replicate (text.length + 1) true

/-- Moves each mark over one character of a set. -/
def advance (set : CharSet) (text : List Char) (marks : Marks) : Marks :=
  false :: List.zipWith (fun c marked => marked && set.contains c) text marks

/-- The characters before and after each place, where `before` precedes the text. -/
def sides (before : Option Char) : List Char → List (Option Char × Option Char)
  | [] => [(before, none)]
  | c :: rest => (before, some c) :: sides (some c) rest

/-- Keeps the marks at places where a look holds. -/
def keep (look : Look) (text : List Char) (marks : Marks) : Marks :=
  List.zipWith (fun side marked => marked && look.holds side.1 side.2) (sides none text) marks

/-- A step taken a number of times, or fewer if it changes no more. -/
def iterate (step : Marks → Marks) : Nat → Marks → Marks
  | 0, marks => marks
  | n + 1, marks =>
    let next := step marks
    if next = marks then marks else iterate step n next

/-- The places reached by a step taken up to a number of times. -/
def widen (step : Marks → Marks) : Nat → Marks → Marks
  | 0, marks => marks
  | n + 1, marks =>
    let next := marks.union (step marks)
    if next = marks then marks else widen step n next

end Marks

namespace Regex

/-- Where the matches end that begin at the marked places of a text. -/
def reach (text : List Char) : Regex → Marks → Marks
  | empty, marks => marks
  | chars set, marks => marks.advance set text
  | look l, marks => marks.keep l text
  | cat a b, marks => b.reach text (a.reach text marks)
  | alt a b, marks => (a.reach text marks).union (b.reach text marks)
  | repeated r min max, marks =>
    let step := fun marks => r.reach text marks
    Marks.widen step (max.elim (text.length + 1) (· - min)) (Marks.iterate step min marks)

def isMatch (r : Regex) (text : List Char) : Bool := (r.reach text (Marks.all text)).any id

end Regex

end LeftCorner
