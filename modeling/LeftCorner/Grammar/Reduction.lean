import LeftCorner.Grammar.Basic
import LeftCorner.Phrase.Match

/-!
# Reductions

A reduction replaces items at the front by the node that a production makes of them. For a target rule the
productions come from the rules among its corners, in order of definition; the first that matches wins.
-/

namespace LeftCorner

/-- A variant of an alternative that may be reduced, with the bound in force for it. -/
structure Production where
  rule : RuleName
  level : Level
  build : Constructor
  phrase : Phrase
  bound : Bound

namespace Production

variable (call : RuleParser)

/-- Matches a production at the front: first its left corner, which changes nothing if it is not there, then
the rest. -/
def attempt (d : Production) (p : Pending) : Attempt Node :=
  match d.phrase.corner? p with
  | none => .failed p
  | some (left, rest) => (d.phrase.complete call left d.bound rest).map (d.build d.rule d.level)

/-- Matches the first production that succeeds, each on what the failures before it left pending. -/
def attemptFirst : List Production → Pending → Attempt Node
  | [], p => .failed p
  | d :: ds, p => (d.attempt call p).orElse (attemptFirst ds)

end Production

namespace Alternative

/-- The productions of an alternative of a rule under the bound in force. -/
def productions (bound : Bound) (rule : RuleName) (a : Alternative) : List Production :=
  (a.phrase.variants bound).map fun (phrase, own) => ⟨rule, a.level, a.build, phrase, own⟩

end Alternative

namespace Grammar

/-- The productions that may be reduced on the way to a target: those of its corners whose level the bound
admits. -/
def productions (g : Grammar) (target : RuleName) (bound : Bound) : List Production :=
  match g.corners? target with
  | none => []
  | some names =>
    (g.rules.filter (names.contains ·.1)).flatMap fun (rule, alternatives) =>
      (alternatives.filter (bound.admits ·.level)).flatMap (·.productions bound rule)

/-- One reduction on the way to a target. The node is not among the items left pending. -/
def reduce (g : Grammar) (call : RuleParser) (target : RuleName) (bound : Bound) (p : Pending) :
    Attempt Node :=
  Production.attemptFirst call (g.productions target bound) p

end Grammar

end LeftCorner
