import LeftCorner.Regex.Parse

/-!
# Engines for regular expressions

Patterns leave it to an engine to read a regular expression and to look for its matches in a text. What they ask of it is a
`RegexEngine`, and what they can rely on is `RegexEngine.Documented`. Where no other engine is named it is `Regex.engine`,
which reads with `Regex.parse` and follows all matches at once.
-/

namespace LeftCorner

structure RegexEngine where
  /-- What the engine makes of an expression. -/
  Compiled : Type
  Fault : Type
  compile : List Char → Except Fault Compiled
  /-- Whether a text has a match, wherever it begins. -/
  isMatch : Compiled → List Char → Bool
  /-- What is wrong with an expression, in the engine's words. -/
  explain : Fault → String

namespace RegexEngine

/-- An expression in a group that remembers nothing. -/
def grouped (e : List Char) : List Char := "(?:".toList ++ e ++ [')']

/-- The assertions, which match between two characters and take none. -/
def assertions : List (List Char) := ["^", "$", "\\A", "\\z", "\\b", "\\B"].map String.toList

/-- What the documentation of an engine promises of the expressions it accepts, where `matched r text start stop` says that
the part of a text from one place to another is a match. Groups are only spoken of where they end the expression and what
stands in them is an expression of its own. Otherwise what stands there could close the group, or end in a comment that runs
on behind it. -/
structure Documented (engine : RegexEngine) (matched : engine.Compiled → List Char → Nat → Nat → Prop) : Prop where
  /-- A text is searched for a match that may begin anywhere. -/
  isMatch_iff : ∀ {e r}, engine.compile e = .ok r → ∀ text,
    engine.isMatch r text ↔ ∃ start stop, matched r text start stop
  /-- Where no flag says otherwise, `^` is the beginning of the text. -/
  textStart : ∀ {r}, engine.compile ['^'] = .ok r → ∀ text start stop, matched r text start stop ↔ start = 0 ∧ stop = 0
  /-- `(?:e)` matches what `e` matches. -/
  group : ∀ {e r g}, engine.compile e = .ok r → engine.compile (grouped e) = .ok g → ∀ text start stop,
    matched g text start stop ↔ matched r text start stop
  /-- `xy` is `x` followed by `y`. -/
  sequence : ∀ {x e r w}, x ∈ assertions → engine.compile e = .ok r → engine.compile (x ++ grouped e) = .ok w →
    ∃ a b, engine.compile x = .ok a ∧ engine.compile (grouped e) = .ok b ∧ ∀ text start stop,
      matched w text start stop ↔ ∃ middle, matched a text start middle ∧ matched b text middle stop

end RegexEngine

/-- The engine of this library. -/
abbrev Regex.engine : RegexEngine where
  Compiled := Regex
  Fault := Regex.Fault
  compile := Regex.parse
  isMatch := Regex.isMatch
  explain := Regex.Fault.message

end LeftCorner
