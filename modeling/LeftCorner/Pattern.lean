import LeftCorner.Regex.Engine

/-!
# Terms

A term says which tokens it accepts: one literal token, or those that a pattern matches. The pattern is
wrapped in `^(?:` and `)` before it is read, and accepts a token in which the whole is found.
-/

namespace LeftCorner

namespace RegexEngine

/-- The text that is read for a pattern. The source is pasted in as it is, well formed or not. -/
def wrap (source : String) : List Char := "^(?:".toList ++ source.toList ++ [')']

variable (engine : RegexEngine)

/-- A token pattern. It is compiled when it is made, so every pattern is well formed. -/
structure Pattern where
  source : String
  regex : engine.Compiled
  reads : engine.compile (wrap source) = .ok regex

structure PatternError where
  source : String
  fault : engine.Fault

/-- The pattern with a source, if the engine accepts what that makes. -/
def pattern (source : String) : Except engine.PatternError engine.Pattern :=
  match h : engine.compile (wrap source) with
  | .ok regex => .ok ⟨source, regex, h⟩
  | .error fault => .error ⟨source, fault⟩

variable {engine}

/-- What is said of the error ahead of the engine's own words. -/
def PatternError.message (e : engine.PatternError) : String := "invalid token pattern `" ++ e.source ++ "`"

/-- The whole text of the error, with what the engine says at the end. -/
def PatternError.text (e : engine.PatternError) : String := e.message ++ ": " ++ engine.explain e.fault

instance : ToString engine.PatternError := ⟨PatternError.text⟩

namespace Pattern

/-- Patterns with one source are one pattern. -/
theorem eq_of_source_eq {p q : engine.Pattern} (h : p.source = q.source) : p = q := by
  obtain ⟨s, r, hr⟩ := p
  obtain ⟨t, u, hu⟩ := q
  subst h
  obtain rfl : r = u := by simpa using hr.symm.trans hu
  rfl

instance : DecidableEq engine.Pattern := fun p q =>
  decidable_of_iff (p.source = q.source) ⟨eq_of_source_eq, fun h => h ▸ rfl⟩

def accepts (p : engine.Pattern) (token : String) : Bool := engine.isMatch p.regex token.toList

end Pattern

/-- A pattern can be made again from its source. -/
theorem pattern_eq_ok_iff {source : String} {p : engine.Pattern} :
    engine.pattern source = .ok p ↔ p.source = source := by
  unfold pattern
  constructor
  · intro h
    split at h
    · cases h
      rfl
    · cases h
  · rintro rfl
    split
    next => exact congrArg Except.ok (Pattern.eq_of_source_eq rfl)
    next h => exact absurd (h.symm.trans p.reads) (by simp)

/-- What is wrong with a pattern is what is wrong with the text that is read for it, and the error names the source. -/
theorem pattern_eq_error_iff {source : String} {e : engine.PatternError} :
    engine.pattern source = .error e ↔ e.source = source ∧ engine.compile (wrap source) = .error e.fault := by
  obtain ⟨s, fault⟩ := e
  unfold pattern
  split
  next h => simp [h]
  next h => simp [h, eq_comm]

end RegexEngine

abbrev Pattern := Regex.engine.Pattern

abbrev PatternError := Regex.engine.PatternError

def Pattern.compile (source : String) : Except PatternError Pattern := Regex.engine.pattern source

/-- What a terminal accepts. -/
inductive Term where
  | literal (token : String)
  | pattern (pattern : Pattern)
deriving DecidableEq

namespace Term

def accepts : Term → String → Bool
  | literal s, token => s == token
  | pattern p, token => p.accepts token

/-- A literal in quotes, or a pattern's source between slashes. -/
def text : Term → String
  | literal s => "'" ++ s ++ "'"
  | pattern p => "/" ++ p.source ++ "/"

instance : ToString Term := ⟨text⟩

@[simp] theorem accepts_literal {s token : String} : (literal s).accepts token ↔ s = token := by
  simp [accepts]

end Term

end LeftCorner
