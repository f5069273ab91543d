import LeftCorner.Node.Constructor
import LeftCorner.Phrase.Text
import LeftCorner.Phrase.Variants

/-!
# Rule tables

A rule has one or more alternatives, each with a level, a phrase and a constructor. A table keeps the rules
in order of their first definition and the alternatives of each in order of definition.
-/

namespace LeftCorner

/-- One way to expand a rule. -/
structure Alternative where
  level : Level
  phrase : Phrase
  build : Constructor

namespace Alternative

/-- An alternative that reduces to a tree. -/
def plain (level : Level) (phrase : Phrase) : Alternative := ⟨level, phrase, .tree⟩

/-- The level in brackets before the phrase. -/
def text (a : Alternative) : String := "[" ++ toString a.level ++ "] " ++ a.phrase.text

end Alternative

/-- An alternative for the rule it defines, or helps to define. -/
structure Definition where
  rule : RuleName
  alternative : Alternative

/-- Rules with their alternatives, in order of definition. -/
abbrev RuleTable := List (RuleName × List Alternative)

namespace RuleTable

/-- Adds an alternative behind those that its rule has, or a rule behind the others. -/
def define (d : Definition) : RuleTable → RuleTable
  | [] => [(d.rule, [d.alternative])]
  | (name, alternatives) :: rest =>
    if name = d.rule then (name, alternatives ++ [d.alternative]) :: rest
    else (name, alternatives) :: define d rest

def names (rules : RuleTable) : List RuleName := rules.map (·.1)

/-- The rules that can stand leftmost in an alternative of a rule. -/
def leftmost (rules : RuleTable) (name : RuleName) : List RuleName :=
  ((rules.lookup name).getD []).flatMap (·.phrase.leftmost)

/-- Only the rule that is defined gets the alternative, behind those it has. -/
theorem lookup_define (d : Definition) (rules : RuleTable) (name : RuleName) :
    (rules.define d).lookup name =
      if name = d.rule then some ((rules.lookup name).getD [] ++ [d.alternative])
      else rules.lookup name := by
  induction rules with
  | nil =>
    by_cases h : name = d.rule
    · simp [define, h]
    · have hb : (name == d.rule) = false := by simpa using h
      simp [define, List.lookup_cons, hb, h]
  | cons r rules ih =>
    obtain ⟨rule, alternatives⟩ := r
    by_cases hr : rule = d.rule
    · by_cases h : name = d.rule
      · simp [define, hr, h]
      · have hb : (name == d.rule) = false := by simpa using h
        simp [define, List.lookup_cons, hr, hb, h]
    · by_cases h : name = rule
      · simp [define, hr, h]
      · have hb : (name == rule) = false := by simpa using h
        simp only [define, hr, if_false, List.lookup_cons, hb, ih]

/-- Defining a rule leaves its name where it was, or puts it last. -/
theorem names_define (d : Definition) (rules : RuleTable) :
    (rules.define d).names = if d.rule ∈ rules.names then rules.names else rules.names ++ [d.rule] := by
  induction rules with
  | nil => simp [define, names]
  | cons r rules ih =>
    obtain ⟨name, alternatives⟩ := r
    by_cases h : name = d.rule
    · simp [define, names, h]
    · have h' : ¬ d.rule = name := fun e => h e.symm
      simp only [names] at ih
      by_cases hm : d.rule ∈ rules.map (·.1) <;>
        simp only [define, names, h, if_false, List.map_cons, ih, List.mem_cons, h', false_or, hm, if_true,
          List.cons_append]

end RuleTable

end LeftCorner
