import LeftCorner.Pattern
import LeftCorner.Proofs.EngineLaws

/-!
# Where a pattern matches

A pattern is read from its source between `^(?:` and `)`. If the source is a regular expression of its own, the parenthesis
closes the group that was opened before the source, so that the whole source stands behind `^` and a match can only begin at
the start of a token. This is so for every engine that is as documented. A source that closes the group itself gets out of
it: what such a source has behind a `|` is not held to the start of a token.
-/

namespace LeftCorner

namespace RegexEngine

variable {engine : RegexEngine} {matched : engine.Compiled → List Char → Nat → Nat → Prop} {r : engine.Compiled}

theorem wrap_eq (source : String) : wrap source = ['^'] ++ grouped source.toList := rfl

/-- The matches of a pattern are those of its source that begin where the text does. -/
theorem Documented.matched_pattern (hd : engine.Documented matched) (p : engine.Pattern)
    (h : engine.compile p.source.toList = .ok r) (text : List Char) (start stop : Nat) :
    matched p.regex text start stop ↔ start = 0 ∧ matched r text 0 stop := by
  have hstart : ['^'] ∈ assertions := List.mem_cons_self
  have hreads : engine.compile (['^'] ++ grouped p.source.toList) = .ok p.regex := wrap_eq p.source ▸ p.reads
  obtain ⟨a, b, ha, hb, hsequence⟩ := hd.sequence hstart h hreads
  rw [hsequence]
  constructor
  · rintro ⟨middle, hassertion, hgroup⟩
    obtain ⟨rfl, rfl⟩ := (hd.textStart ha text start middle).mp hassertion
    exact ⟨rfl, (hd.group h hb text 0 stop).mp hgroup⟩
  · rintro ⟨rfl, hsource⟩
    exact ⟨0, (hd.textStart ha text 0 0).mpr ⟨rfl, rfl⟩, (hd.group h hb text 0 stop).mpr hsource⟩

namespace Pattern

/-- A pattern whose source is a regular expression of its own accepts a token if a match begins at the first character of
the token. No match begins elsewhere, and those that begin there are the matches of the source. -/
theorem accepts_at_start (hd : engine.Documented matched) (p : engine.Pattern)
    (h : engine.compile p.source.toList = .ok r) (token : String) :
    (p.accepts token ↔ ∃ stop, matched p.regex token.toList 0 stop) ∧
      ∀ start stop, matched p.regex token.toList start stop ↔ start = 0 ∧ matched r token.toList 0 stop := by
  have hmatched := hd.matched_pattern p h token.toList
  refine ⟨?_, hmatched⟩
  rw [accepts, hd.isMatch_iff p.reads]
  constructor
  · rintro ⟨start, stop, hfound⟩
    obtain ⟨rfl, -⟩ := (hmatched start stop).mp hfound
    exact ⟨stop, hfound⟩
  · rintro ⟨stop, hfound⟩
    exact ⟨0, stop, hfound⟩

/-- A choice of which both sides are held to the start. -/
theorem choice_accepts_at_start : Regex.engine.Documented Regex.Found ∧
    ∃ (p : Regex.engine.Pattern) (r : Regex), p.source = "a|b+" ∧ Regex.engine.compile p.source.toList = .ok r ∧
      p.accepts "bbc" ∧ (∃ stop, p.regex.Found "bbc".toList 0 stop) ∧ ¬ p.accepts "cbb" := by
  let r : Regex := .alt (.chars (.single 'a')) (.repeated (.chars (.single 'b')) 1 none)
  let p : Regex.engine.Pattern := ⟨"a|b+", .cat (.look .textStart) r, rfl⟩
  have hr : Regex.parse "a|b+".toList = .ok r := rfl
  have haccepts : p.accepts "bbc" := by decide
  exact ⟨Regex.engine_documented, p, r, rfl, hr, haccepts,
    (accepts_at_start Regex.engine_documented p hr "bbc").1.mp haccepts, by decide⟩

/-- A source that closes the group around it has a branch that is not held to the start of a token. -/
theorem closed_group_accepts_inside :
    ¬ ∀ (engine : RegexEngine) (matched : engine.Compiled → List Char → Nat → Nat → Prop), engine.Documented matched →
      ∀ (p : engine.Pattern) (token : String), p.accepts token → ∃ stop, matched p.regex token.toList 0 stop := by
  intro h
  let p : Regex.engine.Pattern :=
    ⟨"a)|(?:b", .alt (.cat (.look .textStart) (.chars (.single 'a'))) (.chars (.single 'b')), rfl⟩
  obtain ⟨stop, -, hmatch⟩ := h Regex.engine Regex.Found Regex.engine_documented p "xb" (by decide)
  rcases hmatch with ⟨k, ⟨rfl, -⟩, -, c, hc, hset⟩ | ⟨-, c, hc, hset⟩
  · cases hc
    exact absurd hset (by decide)
  · cases hc
    exact absurd hset (by decide)

end Pattern

end RegexEngine

end LeftCorner
