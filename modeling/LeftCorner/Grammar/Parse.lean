import LeftCorner.Grammar.Reduction

/-!
# Parsing

A rule is parsed bottom-up: the front is reduced until no production on the way to the rule matches, and then
it is taken if it is a tree of the rule that the bound admits. Reductions are not taken back: those of a
failed attempt stay pending. A grammar may go on reducing for ever, so parsing is given an allowance of steps.
-/

namespace LeftCorner

/-- The rule that was asked for did not stand at the front in the end, or not at a welcome level. -/
structure Unparsed where
  rule : RuleName
  remainder : Pending
deriving DecidableEq

def Unparsed.message (e : Unparsed) : String :=
  "no parse for `" ++ e.rule ++ "`, unconsumed: " ++ e.remainder.text

namespace Grammar

/-- Parses a rule under a bound from the front. The allowance is the number of reductions and nested parses
that may follow one upon another. -/
def parse (g : Grammar) : (allowance : Nat) → RuleName → Bound → Pending → Attempt Tree
  | 0, _, _, _ => .exhausted
  | n + 1, name, bound, p =>
    match g.reduce (g.parse n) name bound p with
    | .matched node rest => g.parse n name bound (.node node :: rest)
    | .failed rest =>
      match rest.takeTree? fun t => t.rule == name && bound.admits t.level with
      | some (tree, rest) => .matched tree rest
      | none => .failed rest
    | .exhausted => .exhausted

/-- An allowance for grammars in which no chain of reductions of single nodes comes back to its start: then
no item takes part in more reductions than there are rules, short of one that makes items fewer. -/
def allowance (g : Grammar) (p : Pending) : Nat := (g.rules.length + 2) * p.length + 1

/-- Parses all of some tokens, with the end marker behind them, under the standard bound. There is no answer
if the allowance does not suffice. -/
def parseAll (g : Grammar) (allowance : Nat) (rule : RuleName) (tokens : List String) :
    Option (Except Unparsed Tree) :=
  match g.parse allowance rule .standard (.ofTokens tokens Pending.endMarker) with
  | .matched tree _ => some (.ok tree)
  | .failed rest => some (.error ⟨rule, rest⟩)
  | .exhausted => none

end Grammar

end LeftCorner
