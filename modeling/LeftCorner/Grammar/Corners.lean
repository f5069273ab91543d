import LeftCorner.Grammar.Rules

/-!
# Corner sets

The corners of a rule are the rule itself and all rules that can stand leftmost in what it expands to, by
way of any number of rules. They are found by a depth-first search along the names that the rules directly
lead to. A name that no rule has may be a corner, but has no corners of its own.
-/

namespace LeftCorner

namespace RuleTable

/-- The names that each rule leads to in one step, as often as its alternatives name them. -/
def direct (rules : RuleTable) : List (RuleName × List RuleName) :=
  rules.map fun (name, alternatives) => (name, alternatives.flatMap (·.phrase.leftmost))

/-- How many names the rules that have not been reached have yet to put on the stack. -/
def unexpanded (reached : List RuleName) : List (RuleName × List RuleName) → Nat
  | [] => 0
  | (rule, next) :: direct => (if rule ∈ reached then 0 else next.length) + unexpanded reached direct

theorem unexpanded_concat_le (reached : List RuleName) (name : RuleName)
    (direct : List (RuleName × List RuleName)) :
    unexpanded (reached ++ [name]) direct ≤ unexpanded reached direct := by
  induction direct with
  | nil => exact Nat.le_refl _
  | cons r direct ih =>
    obtain ⟨rule, next⟩ := r
    have hsub : rule ∈ reached → rule ∈ reached ++ [name] := List.mem_append_left _
    simp only [unexpanded]
    split <;> split
    · omega
    · omega
    next hout hin => exact absurd (hsub hin) hout
    · omega

/-- A rule that is reached puts its names on the stack at once, and never again. -/
theorem unexpanded_concat_add_le {reached : List RuleName} {name : RuleName} (h : name ∉ reached)
    (direct : List (RuleName × List RuleName)) :
    unexpanded (reached ++ [name]) direct + ((direct.lookup name).getD []).length ≤ unexpanded reached direct := by
  induction direct with
  | nil => exact Nat.le_refl _
  | cons r direct ih =>
    obtain ⟨rule, next⟩ := r
    by_cases hr : name = rule
    · subst hr
      have hrest := unexpanded_concat_le reached name direct
      simp only [unexpanded, h, List.mem_append, List.mem_singleton, or_true, if_true, if_false,
        List.lookup_cons_self, Option.getD_some]
      omega
    · have hb : (name == rule) = false := beq_false_of_ne hr
      have hm : rule ∈ reached ++ [name] ↔ rule ∈ reached := by simp [Ne.symm hr]
      simp only [unexpanded, hm, List.lookup_cons, hb]
      omega

/-- The search along the names on a stack. The one on top is passed over if it has been reached before.
Otherwise it is reached now, and what it leads to goes on the stack, the last name on top. -/
@[semireducible] -- the search through a given table evaluates
def search (direct : List (RuleName × List RuleName)) (reached : List RuleName) : List RuleName → List RuleName
  | [] => reached
  | name :: stack =>
    if name ∈ reached then search direct reached stack
    else search direct (reached ++ [name]) (((direct.lookup name).getD []).reverse ++ stack)
termination_by stack => stack.length + unexpanded reached direct
decreasing_by
  · simp
  next h =>
    have hle := unexpanded_concat_add_le h direct
    simp only [List.length_append, List.length_reverse, List.length_cons]
    omega

/-- The corners of a name, in the order in which the search reaches them. -/
def cornersFrom (rules : RuleTable) (name : RuleName) : List RuleName := search rules.direct [] [name]

def cornerIndex (rules : RuleTable) : List (RuleName × List RuleName) :=
  rules.map fun (name, _) => (name, rules.cornersFrom name)

/-- What is worked out for each rule is found under its name. -/
theorem lookup_map_rules {α : Type} (f : RuleName → List Alternative → α) (rules : RuleTable) (name : RuleName) :
    List.lookup name (rules.map fun r => (r.1, f r.1 r.2)) = (List.lookup name rules).map (f name) := by
  induction rules with
  | nil => rfl
  | cons r rules ih =>
    obtain ⟨rule, alternatives⟩ := r
    by_cases h : name = rule
    · subst h
      simp
    · have hb : (name == rule) = false := beq_false_of_ne h
      simpa [List.lookup_cons, hb] using ih

/-- A search pushes the names that can stand leftmost in an alternative of the rule. -/
theorem lookup_direct (rules : RuleTable) (name : RuleName) :
    (rules.direct.lookup name).getD [] = rules.leftmost name := by
  rw [direct, lookup_map_rules fun _ alternatives => alternatives.flatMap (·.phrase.leftmost), leftmost]
  cases rules.lookup name <;> rfl

/-- A rule has corners, and a name without a definition has none. -/
theorem lookup_cornerIndex (rules : RuleTable) (name : RuleName) :
    rules.cornerIndex.lookup name = if name ∈ rules.names then some (rules.cornersFrom name) else none := by
  rw [cornerIndex, lookup_map_rules fun name _ => rules.cornersFrom name]
  cases h : rules.lookup name with
  | none =>
    have hn : name ∉ rules.names := fun hm => by
      obtain ⟨r, hr, rfl⟩ := List.mem_map.mp hm
      exact absurd (List.lookup_eq_none_iff.mp h r hr) (by simp)
    rw [if_neg hn, Option.map_none]
  | some alternatives =>
    obtain ⟨front, back, rfl, -⟩ := List.lookup_eq_some_iff.mp h
    rw [if_pos (by simp [names]), Option.map_some]

end RuleTable

end LeftCorner
