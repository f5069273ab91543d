import LeftCorner.Node.Basic
import LeftCorner.Pattern

/-!
# Phrases

A phrase is the right-hand side of a rule: terms and rule names, put together by sequence and ordered
choice. A bounded phrase says how tightly whatever stands for it has to bind.
-/

namespace LeftCorner

/-- What a rule expands to. -/
inductive Phrase where
  | term (term : Term)
  | rule (name : RuleName)
  /-- A phrase under a bound of its own, whatever bound is in force around it. -/
  | bounded (inner : Phrase) (bound : Bound)
  /-- The first of some phrases that matches. -/
  | choice (options : List Phrase)
  | sequence (elements : List Phrase)
deriving Inhabited

namespace Phrase

mutual

def decEq : (e f : Phrase) → Decidable (e = f)
  | term s, term t => decidable_of_iff (s = t) (by simp)
  | rule m, rule n => decidable_of_iff (m = n) (by simp)
  | bounded e p, bounded f q =>
    match decEq e f with
    | isTrue h => decidable_of_iff (p = q) (by simp [h])
    | isFalse h => isFalse (by simp [h])
  | choice es, choice fs =>
    match decEqAll es fs with
    | isTrue h => isTrue (by simp [h])
    | isFalse h => isFalse (by simp [h])
  | sequence es, sequence fs =>
    match decEqAll es fs with
    | isTrue h => isTrue (by simp [h])
    | isFalse h => isFalse (by simp [h])
  | term _, rule _ | term _, bounded .. | term _, choice _ | term _, sequence _
  | rule _, term _ | rule _, bounded .. | rule _, choice _ | rule _, sequence _
  | bounded .., term _ | bounded .., rule _ | bounded .., choice _ | bounded .., sequence _
  | choice _, term _ | choice _, rule _ | choice _, bounded .. | choice _, sequence _
  | sequence _, term _ | sequence _, rule _ | sequence _, bounded .. | sequence _, choice _ =>
    isFalse (by simp)

def decEqAll : (es fs : List Phrase) → Decidable (es = fs)
  | [], [] => isTrue rfl
  | [], _ :: _ => isFalse (by simp)
  | _ :: _, [] => isFalse (by simp)
  | e :: es, f :: fs =>
    match decEq e f, decEqAll es fs with
    | isTrue h, isTrue hs => isTrue (by simp [h, hs])
    | isFalse h, _ => isFalse (by simp [h])
    | _, isFalse hs => isFalse (by simp [hs])

end

instance : DecidableEq Phrase := decEq

def literal (token : String) : Phrase := term (.literal token)

instance : Coe String Phrase := ⟨literal⟩

/-- Whatever stands for the phrase has to bind more tightly than a level. -/
def tighterThan (e : Phrase) (limit : Level) : Phrase := bounded e (.below limit)

/-- Whatever stands for the phrase may bind as loosely as a level. -/
def upTo (e : Phrase) (limit : Level) : Phrase := bounded e (.atMost limit)

/-- One phrase after another. A sequence on the left is made longer. -/
def andThen : Phrase → Phrase → Phrase
  | sequence es, f => sequence (es ++ [f])
  | e, f => sequence [e, f]

/-- One phrase, or else another. A choice on the left is made longer. -/
def orElse : Phrase → Phrase → Phrase
  | choice es, f => choice (es ++ [f])
  | e, f => choice [e, f]

instance : Add Phrase := ⟨andThen⟩

instance : OrOp Phrase := ⟨orElse⟩

end Phrase

end LeftCorner
