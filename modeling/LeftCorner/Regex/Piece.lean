import LeftCorner.Regex.Basic

/-!
# Parts of a regular expression and their measures

Two limits guard against expressions that are too large to be of use: how deeply their text nests, and how
much space an automaton for them takes. A `Piece` is a regular expression together with these measures.
-/

namespace LeftCorner

namespace CharSet

/-- An estimate of the bytes that an automaton over bytes needs to match one character of a set. -/
def cost : CharSet → Nat
  | none => 32
  | range _ hi => if hi.toNat < 128 then 40 else 160
  | digit => 1376
  | space => 392
  | word => 19936
  | alphabetic => 19168
  | union a b => a.cost + b.cost
  | inter a _ => a.cost
  | compl a => a.cost + 352
  | anyCase a => a.cost + 8

end CharSet

namespace Regex

structure Piece where
  regex : Regex
  /-- How many groups, classes, repetitions, sequences and choices lie within one another. -/
  depth : Nat
  /-- An estimate of the bytes that an automaton takes. -/
  cost : Nat
  /-- Whether all matches are empty. -/
  zeroWidth : Bool

namespace Piece

def empty : Piece := ⟨.empty, 0, 32, true⟩

def chars (set : CharSet) (depth : Nat) : Piece := ⟨.chars set, depth, set.cost, false⟩

def look (l : Look) : Piece := ⟨.look l, 0, 32, true⟩

def deepest (ps : List Piece) : Nat := (ps.map depth).foldl max 0

/-- What some pieces cost together, with an extra charge for each. -/
def totalCost (extra : Nat) (ps : List Piece) : Nat := (ps.map fun p => p.cost + extra).foldl Nat.add 0

def sequence : List Piece → Piece
  | [] => empty
  | [p] => p
  | p :: ps =>
    ⟨ps.foldl (fun r q => .cat r q.regex) p.regex, deepest (p :: ps) + 1,
      totalCost 0 (p :: ps), (p :: ps).all zeroWidth⟩

/-- One of some pieces, of which there is at least one. -/
def choice (p : Piece) : List Piece → Piece
  | [] => p
  | ps =>
    ⟨ps.foldl (fun r q => .alt r q.regex) p.regex, deepest (p :: ps) + 1,
      totalCost 4 (p :: ps) + 32, (p :: ps).all zeroWidth⟩

/-- A piece in parentheses, which may remember what they matched. -/
def group (captures : Bool) (p : Piece) : Piece :=
  { p with depth := p.depth + 1, cost := p.cost + if captures then 64 else 0 }

/-- A piece a number of times. A piece whose matches are all empty need not match more than once. -/
def repeated (p : Piece) (min : Nat) (max : Option Nat) : Piece :=
  let least := if p.zeroWidth then Nat.min min 1 else min
  let most := if p.zeroWidth then some (Nat.min (max.getD 1) 1) else max
  let copies := match most with
    | some n => p.cost * least + (p.cost + 40) * (n - least)
    | none => p.cost * Nat.max least 1 + 40
  ⟨.repeated p.regex least most, p.depth + 1, copies + 32, p.zeroWidth || most == some 0⟩

end Piece

end Regex

end LeftCorner
