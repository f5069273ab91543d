import LeftCorner.Phrase.Basic

/-!
# The text of a phrase

Sequences are joined by `+`, choices by `|`, and a bound follows its phrase. Parentheses stand where the
phrase would otherwise read as another: around a sequence or a choice that is part of the other or under a
bound, and around a bounded phrase under another bound.
-/

namespace LeftCorner.Phrase

/-- Where a phrase stands within another. -/
inductive Position where
  | inSequence
  | inChoice
  | underBound

/-- Whether a phrase needs parentheses where it stands. -/
def needsParens : Phrase → Position → Bool
  | sequence _, .inChoice | sequence _, .underBound => true
  | choice _, .inSequence | choice _, .underBound => true
  | bounded .., .underBound => true
  | _, _ => false

def enclose (e : Phrase) (position : Position) (text : String) : String :=
  if e.needsParens position then "(" ++ text ++ ")" else text

mutual

def text : Phrase → String
  | term t => t.text
  | rule name => name
  | bounded e bound => enclose e .underBound e.text ++ bound.text
  | choice es => " | ".intercalate (texts .inChoice es)
  | sequence es => " + ".intercalate (texts .inSequence es)

def texts (position : Position) : List Phrase → List String
  | [] => []
  | e :: es => enclose e position e.text :: texts position es

end

instance : ToString Phrase := ⟨text⟩

theorem texts_eq_map (position : Position) (es : List Phrase) :
    texts position es = es.map fun e => enclose e position e.text := by
  induction es with
  | nil => rfl
  | cons e es ih => simp [texts, ih]

end LeftCorner.Phrase
