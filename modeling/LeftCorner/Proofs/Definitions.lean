import LeftCorner.Grammar.Basic
import LeftCorner.Proofs.CornerSets
import Mathlib.Data.Finset.Card

/-!
# What definitions make of a grammar

The rules of a grammar are those that were defined, in order of their first definition, and each has its alternatives
in order of definition. The corners of a rule are the names that its alternatives lead to, by way of any number of
rules. They do not depend on the order of the definitions.
-/

namespace LeftCorner

/-- A table in which no name stands twice is told by its names and what is found under them. -/
theorem RuleTable.eq_map_lookup {rules : RuleTable} (h : rules.names.Nodup) :
    rules = rules.names.map fun rule => (rule, (rules.lookup rule).getD []) := by
  induction rules with
  | nil => rfl
  | cons r rules ih =>
    obtain ⟨name, alternatives⟩ := r
    obtain ⟨hn, hrest⟩ := List.nodup_cons.mp h
    have htail : ∀ rule ∈ names rules, (List.lookup rule ((name, alternatives) :: rules)).getD [] =
        (rules.lookup rule).getD [] := by
      intro rule hr
      have hne : rule ≠ name := fun he => hn (he ▸ hr)
      rw [List.lookup_cons, beq_false_of_ne hne]
    rw [names, List.map_cons, List.map_cons, List.lookup_cons_self]
    congr 1
    refine (ih hrest).trans (List.map_congr_left fun rule hr => ?_)
    rw [htail rule hr]

namespace Definition

/-- The rules that are defined, each once, in order of first definition. -/
def names (ds : List Definition) : List RuleName := (ds.map (·.rule)).eraseDups

/-- The alternatives of a rule, in order of definition. -/
def alternatives (ds : List Definition) (rule : RuleName) : List Alternative :=
  (ds.filter (·.rule = rule)).map (·.alternative)

/-- A name can stand leftmost in an alternative of a rule. -/
def LeadsTo (ds : List Definition) (rule corner : RuleName) : Prop :=
  ∃ d ∈ ds, d.rule = rule ∧ corner ∈ d.alternative.phrase.leftmost

variable {ds es : List Definition} {d : Definition} {rule corner : RuleName}

theorem mem_names : rule ∈ names ds ↔ ∃ d ∈ ds, d.rule = rule := by
  rw [names, List.mem_eraseDups, List.mem_map]

theorem names_concat (ds : List Definition) (d : Definition) :
    names (ds ++ [d]) = if d.rule ∈ names ds then names ds else names ds ++ [d.rule] := by
  simp only [names, List.map_append, List.map_singleton, List.eraseDups_append, List.removeAll, List.mem_eraseDups]
  by_cases h : d.rule ∈ ds.map (·.rule)
  · rw [if_pos h, List.filter_cons_of_neg (by simpa using h)]
    exact List.append_nil _
  · rw [if_neg h, List.filter_cons_of_pos (by simpa using h)]
    rfl

theorem alternatives_concat (ds : List Definition) (d : Definition) (rule : RuleName) :
    alternatives (ds ++ [d]) rule = alternatives ds rule ++ if rule = d.rule then [d.alternative] else [] := by
  by_cases h : rule = d.rule
  · simp [alternatives, h]
  · simp [alternatives, h, eq_comm]

theorem mem_alternatives {a : Alternative} : a ∈ alternatives ds rule ↔ ⟨rule, a⟩ ∈ ds := by
  constructor
  · intro h
    obtain ⟨d, hd, rfl⟩ := List.mem_map.mp h
    obtain ⟨hd, hr⟩ := List.mem_filter.mp hd
    rwa [← of_decide_eq_true hr]
  · intro h
    exact List.mem_map.mpr ⟨⟨rule, a⟩, List.mem_filter.mpr ⟨h, decide_eq_true rfl⟩, rfl⟩

theorem leadsTo_of_perm (h : ds.Perm es) : LeadsTo ds = LeadsTo es := by
  funext rule corner
  simp only [LeadsTo, h.mem_iff]

end Definition

namespace Grammar

open Definition

variable {name : String} {ds es : List Definition} {rule corner : RuleName}

theorem ofDefinitions_concat (name : String) (ds : List Definition) (d : Definition) :
    ofDefinitions name (ds ++ [d]) = (ofDefinitions name ds).define d := by
  simp [ofDefinitions]

theorem names_ofDefinitions (name : String) (ds : List Definition) :
    (ofDefinitions name ds).rules.names = Definition.names ds := by
  induction ds using List.reverseRecOn with
  | nil => rfl
  | append_singleton ds d ih =>
    rw [ofDefinitions_concat, rules_define, RuleTable.names_define, ih, names_concat]

theorem lookup_ofDefinitions (name : String) (ds : List Definition) (rule : RuleName) :
    ((ofDefinitions name ds).rules.lookup rule).getD [] = alternatives ds rule := by
  induction ds using List.reverseRecOn with
  | nil => rfl
  | append_singleton ds d ih =>
    rw [ofDefinitions_concat, rules_define, RuleTable.lookup_define, alternatives_concat, ← ih]
    by_cases h : rule = d.rule
    · simp [h]
    · simp [h]

theorem nodup_names_ofDefinitions (name : String) (ds : List Definition) :
    (ofDefinitions name ds).rules.names.Nodup := by
  rw [names_ofDefinitions]
  exact RuleTable.nodup_eraseDups _

theorem rules_ofDefinitions (name : String) (ds : List Definition) :
    (ofDefinitions name ds).rules = (Definition.names ds).map fun rule => (rule, alternatives ds rule) := by
  rw [RuleTable.eq_map_lookup (nodup_names_ofDefinitions name ds), names_ofDefinitions]
  simp only [lookup_ofDefinitions]

theorem mem_leftmost_ofDefinitions :
    corner ∈ (ofDefinitions name ds).rules.leftmost rule ↔ LeadsTo ds rule corner := by
  rw [RuleTable.leftmost, lookup_ofDefinitions, List.mem_flatMap]
  constructor
  · intro h
    obtain ⟨a, ha, hc⟩ := h
    exact ⟨⟨rule, a⟩, mem_alternatives.mp ha, rfl, hc⟩
  · intro h
    obtain ⟨⟨_, a⟩, hd, rfl, hc⟩ := h
    exact ⟨a, mem_alternatives.mpr hd, hc⟩

theorem mem_cornersFrom_ofDefinitions : corner ∈ (ofDefinitions name ds).rules.cornersFrom rule ↔
    Relation.ReflTransGen (LeadsTo ds) rule corner := by
  simp only [RuleTable.mem_cornersFrom, RuleTable.Leads, mem_leftmost_ofDefinitions]

theorem corners?_ofDefinitions (name : String) (ds : List Definition) (rule : RuleName) :
    (ofDefinitions name ds).corners? rule =
      if ∃ d ∈ ds, d.rule = rule then some ((ofDefinitions name ds).rules.cornersFrom rule) else none := by
  rw [corners?_eq, names_ofDefinitions]
  simp only [mem_names]

/-- What is defined counts for the corner sets, and not in which order. -/
theorem corners?_of_perm (h : ds.Perm es) (rule : RuleName) :
    ((ofDefinitions name es).corners? rule).map List.toFinset =
      ((ofDefinitions name ds).corners? rule).map List.toFinset := by
  have hset : ((ofDefinitions name es).rules.cornersFrom rule).toFinset =
      ((ofDefinitions name ds).rules.cornersFrom rule).toFinset := by
    ext corner
    simp only [List.mem_toFinset, mem_cornersFrom_ofDefinitions, leadsTo_of_perm h]
  simp only [corners?_ofDefinitions, h.mem_iff]
  split
  · exact congrArg some hset
  · rfl

/-- The rules are those that were defined, once each and in order of first definition, with all their alternatives in
order of definition. A rule has corners if it was defined, and these are the names it leads to in any number of steps.
The order of the definitions makes no difference to them. -/
theorem rules_and_corners_ofDefinitions (name : String) (ds : List Definition) :
    (ofDefinitions name ds).rules = (Definition.names ds).map (fun rule => (rule, alternatives ds rule)) ∧
      (∀ rule, (ofDefinitions name ds).corners? rule = none ↔ ∀ d ∈ ds, d.rule ≠ rule) ∧
      (∀ rule corners, (ofDefinitions name ds).corners? rule = some corners →
        corners.Nodup ∧ ∀ corner, corner ∈ corners ↔ Relation.ReflTransGen (LeadsTo ds) rule corner) ∧
      ∀ es, ds.Perm es → ∀ rule, ((ofDefinitions name es).corners? rule).map List.toFinset =
        ((ofDefinitions name ds).corners? rule).map List.toFinset := by
  refine ⟨rules_ofDefinitions name ds, fun rule => ?_, fun rule corners h => ?_, fun es h => corners?_of_perm h⟩
  · rw [corners?_ofDefinitions]
    split
    next hd => simpa using hd
    next hd => simpa using hd
  · rw [corners?_ofDefinitions] at h
    split at h
    next =>
      cases h
      exact ⟨RuleTable.nodup_cornersFrom _ rule, fun corner => mem_cornersFrom_ofDefinitions⟩
    next => cases h

/-- Sums, from the whole down to the terms. Each rule but the last leads to rules that are defined behind it, sums lead
back to expressions, and one alternative leads to a rule that is not defined. -/
def sumDefinitions : List Definition := [
  ⟨"block", .plain 0 (.rule "expr" + "$")⟩,
  ⟨"expr", .plain 0 (.rule "term" ||| .rule "sum")⟩,
  ⟨"sum", .plain 10 ((Phrase.rule "expr").upTo 10 + "+" + .rule "term")⟩,
  ⟨"term", .plain 0 (.literal "n")⟩,
  ⟨"expr", .plain 0 (.rule "call")⟩]

theorem sums_rules_and_corners :
    sumDefinitions.Perm sumDefinitions.reverse ∧
      (ofDefinitions "sums" sumDefinitions).rules.names = ["block", "expr", "sum", "term"] ∧
      ((ofDefinitions "sums" sumDefinitions.reverse).corners? "block").map List.toFinset =
        some {"block", "expr", "term", "sum", "call"} := by
  have hp : sumDefinitions.Perm sumDefinitions.reverse := (List.reverse_perm sumDefinitions).symm
  have hc : (ofDefinitions "sums" sumDefinitions).corners? "block" =
      some ["block", "expr", "call", "sum", "term"] := rfl
  refine ⟨hp, rfl, ?_⟩
  rw [(rules_and_corners_ofDefinitions "sums" sumDefinitions).2.2.2 _ hp "block", hc]
  exact congrArg some (by decide)

end Grammar

end LeftCorner
