import LeftCorner.Grammar.Corners

/-!
# Grammars

A grammar is a named table of rules with the corner sets that go with it. Rules refer to one another by
name, so they may be defined in any order and may refer to themselves.
-/

namespace LeftCorner

/-- Rules, and which of them can start which. -/
structure Grammar where
  name : String
  rules : RuleTable
  index : List (RuleName × List RuleName)
  index_eq : index = rules.cornerIndex

namespace Grammar

def ofRules (name : String) (rules : RuleTable) : Grammar := ⟨name, rules, rules.cornerIndex, rfl⟩

def empty (name : String) : Grammar := ofRules name []

/-- Adds an alternative to a rule, and the rule if it is new. -/
def define (g : Grammar) (d : Definition) : Grammar := ofRules g.name (g.rules.define d)

def ofDefinitions (name : String) (ds : List Definition) : Grammar := ds.foldl define (empty name)

/-- The alternatives of a rule, in order of definition. -/
def alternatives? (g : Grammar) (name : RuleName) : Option (List Alternative) := g.rules.lookup name

/-- The rules that can start what a rule expands to, the rule itself among them. -/
def corners? (g : Grammar) (name : RuleName) : Option (List RuleName) := g.index.lookup name

/-- The name, and below it each alternative on a line of its own. -/
def text (g : Grammar) : String :=
  g.name ++ ":" ++ String.join (g.rules.flatMap fun (name, alternatives) =>
    alternatives.map fun a =>
      "\n\t" ++ name ++ "[" ++ toString a.level ++ "] --> " ++ a.phrase.text)

instance : ToString Grammar := ⟨text⟩

@[simp] theorem rules_ofRules (name : String) (rules : RuleTable) : (ofRules name rules).rules = rules := rfl

@[simp] theorem rules_define (g : Grammar) (d : Definition) : (g.define d).rules = g.rules.define d := rfl

theorem corners?_eq (g : Grammar) (name : RuleName) :
    g.corners? name = if name ∈ g.rules.names then some (g.rules.cornersFrom name) else none := by
  rw [corners?, g.index_eq, RuleTable.lookup_cornerIndex]

end Grammar

end LeftCorner
