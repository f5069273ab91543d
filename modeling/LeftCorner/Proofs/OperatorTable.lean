import LeftCorner.Proofs.Operator
import LeftCorner.Proofs.Settled
import Mathlib.Data.List.Nodup

/-!
# Operator tables

Operators with distinct tokens make an *operator table*. A grammar reads the expressions of a table for a target
under a bound if its productions there are those for numbers, for operations that the bound admits, and for making
expressions of either, and a few others. As long as the others stay idle, a run goes in small steps: a number is
reduced to an expression; an expression, an operator's token and a right operand are reduced to an expression; and
an expression is taken when the token behind it belongs to no operator that is admitted.

The grammar of a table has the rules for items, expressions and operations, defined in any order.
-/

namespace LeftCorner

/-- Binary operators, told apart by their tokens. -/
structure OperatorTable where
  operators : List Operator
  tokens_nodup : (operators.map Operator.token).Nodup

/-- A production that fails at once and changes nothing. -/
def Production.Idle (d : Production) (p : Pending) : Prop := ∀ call, d.attempt call p = .failed p

namespace OperatorTable

variable {table : OperatorTable}

theorem eq_of_token {op op' : Operator} (ho : op ∈ table.operators) (ho' : op' ∈ table.operators)
    (h : op.token = op'.token) : op = op' :=
  List.inj_on_of_nodup_map table.tokens_nodup ho ho' h

/-- The rules whose trees are reduced to expressions. -/
def Operand (table : OperatorTable) (name : RuleName) : Prop :=
  name = "item" ∨ ∃ op ∈ table.operators, name = op.rule

theorem Operand.ne_expr {name : RuleName} (h : table.Operand name) : name ≠ "expr" := by
  rcases h with rfl | ⟨op, -, rfl⟩
  · decide
  · exact op.rule_ne_expr

/-- The productions for a target under a bound are those of the table, and some others. -/
structure ReadBy (table : OperatorTable) (g : Grammar) (target : RuleName) (own : Bound)
    (others : List Production) : Prop where
  item : Arithmetic.itemProduction own ∈ g.productions target own
  expr : ∀ name, table.Operand name → Arithmetic.exprProduction name own ∈ g.productions target own
  operator : ∀ op ∈ table.operators, own.admits op.level → op.production own ∈ g.productions target own
  only : ∀ d ∈ g.productions target own, d = Arithmetic.itemProduction own ∨
    (∃ name, table.Operand name ∧ d = Arithmetic.exprProduction name own) ∨
    (∃ op ∈ table.operators, own.admits op.level ∧ d = op.production own) ∨ d ∈ others

namespace ReadBy

variable {g : Grammar} {target : RuleName} {own : Bound} {others : List Production} {q rest : Pending}

theorem settled_item (h : table.ReadBy g target own others) {s : String} (hs : Arithmetic.number.accepts s)
    (hidle : ∀ d ∈ others, d.Idle (.token s :: q)) :
    g.settled target own (.token s :: q) = g.settled target own (.node (Arithmetic.itemTree s).toNode :: q) := by
  apply Grammar.settled_of_production h.item (Arithmetic.attempt_itemProduction hs)
  intro d hd
  rcases h.only d hd with rfl | ⟨name, -, rfl⟩ | ⟨op, -, -, rfl⟩ | ho
  · exact .inr (Arithmetic.attempt_itemProduction hs)
  · exact .inl rfl
  · exact .inl Operator.attempt_token
  · exact .inl (hidle d ho _)

theorem settled_expr (h : table.ReadBy g target own others) {t : Tree} (ht : table.Operand t.rule)
    (hidle : ∀ d ∈ others, d.Idle (.node t.toNode :: q)) :
    g.settled target own (.node t.toNode :: q) =
      g.settled target own (.node (Arithmetic.exprTree t).toNode :: q) := by
  have hm : (Arithmetic.exprProduction t.rule own).attempt g.settled (.node t.toNode :: q) =
      .matched (Arithmetic.exprTree t).toNode q := Arithmetic.attempt_exprProduction rfl
  apply Grammar.settled_of_production (h.expr _ ht) hm
  intro d hd
  rcases h.only d hd with rfl | ⟨name, -, rfl⟩ | ⟨op, -, -, rfl⟩ | ho
  · exact .inl rfl
  · by_cases hn : t.rule = name
    · exact .inr (Arithmetic.attempt_exprProduction hn)
    · exact .inl (Arithmetic.attempt_exprProduction_of_ne hn)
  · exact .inl (Operator.attempt_other ht.ne_expr)
  · exact .inl (hidle d ho _)

theorem settled_number (h : table.ReadBy g target own others) {s : String} (hs : Arithmetic.number.accepts s)
    (hidle : ∀ d ∈ others, d.Idle (.token s :: q))
    (hitem : ∀ d ∈ others, d.Idle (.node (Arithmetic.itemTree s).toNode :: q)) :
    g.settled target own (.token s :: q) =
      g.settled target own (.node (Arithmetic.exprTree (Arithmetic.itemTree s)).toNode :: q) :=
  (h.settled_item hs hidle).trans (h.settled_expr (.inl rfl) hitem)

/-- An operation is reduced to an expression, once its right operand can be parsed. -/
theorem settled_operation (h : table.ReadBy g target own others) {op : Operator} (ho : op ∈ table.operators)
    (hop : own.admits op.level) {l r : Tree} (hl : l.rule = "expr")
    (hr : g.settled "expr" op.right q = .matched r rest)
    (hidle : ∀ d ∈ others, d.Idle (.node l.toNode :: .token op.token :: q))
    (htree : ∀ d ∈ others, d.Idle (.node (op.tree l r).toNode :: rest)) :
    g.settled target own (.node l.toNode :: .token op.token :: q) =
      g.settled target own (.node (Arithmetic.exprTree (op.tree l r)).toNode :: rest) := by
  have hm : (op.production own).attempt g.settled (.node l.toNode :: .token op.token :: q) =
      .matched (op.tree l r).toNode rest := Operator.attempt_matched hl hr
  have hreduce : g.settled target own (.node l.toNode :: .token op.token :: q) =
      g.settled target own (.node (op.tree l r).toNode :: rest) := by
    apply Grammar.settled_of_production (h.operator op ho hop) hm
    intro d hd
    rcases h.only d hd with rfl | ⟨name, hn, rfl⟩ | ⟨op', ho', -, rfl⟩ | hd
    · exact .inl rfl
    · exact .inl (Arithmetic.attempt_exprProduction_of_ne (hl ▸ hn.ne_expr.symm))
    · by_cases he : op'.token = op.token
      · rw [table.eq_of_token ho' ho he]
        exact .inr hm
      · refine .inl (Operator.attempt_idle fun q' hq => he ?_)
        exact (Item.token.inj (List.cons.inj hq).1).symm
    · exact .inl (hidle d hd _)
  exact hreduce.trans (h.settled_expr (.inr ⟨op, ho, rfl⟩) htree)

/-- An expression is taken if the token behind it is that of no operator that is admitted. -/
theorem settled_stuck (h : table.ReadBy g "expr" own others) {t : Tree} (ht : t.rule = "expr")
    (hlevel : own.admits t.level)
    (hq : ∀ op ∈ table.operators, ∀ q', q = .token op.token :: q' → ¬ own.admits op.level)
    (hidle : ∀ d ∈ others, d.Idle (.node t.toNode :: q)) :
    g.settled "expr" own (.node t.toNode :: q) = .matched t q := by
  have hnone : ∀ d ∈ g.productions "expr" own,
      d.attempt g.settled (.node t.toNode :: q) = .failed (.node t.toNode :: q) := by
    intro d hd
    rcases h.only d hd with rfl | ⟨name, hn, rfl⟩ | ⟨op, ho, hop, rfl⟩ | hd
    · rfl
    · exact Arithmetic.attempt_exprProduction_of_ne (ht ▸ hn.ne_expr.symm)
    · exact Operator.attempt_idle fun q' he => hq op ho q' he hop
    · exact hidle d hd _
  exact Grammar.settled_of_no_production hnone ht hlevel

end ReadBy

/-- An item or an operation. -/
def phrase (table : OperatorTable) : Phrase :=
  table.operators.foldl (fun e op => e ||| .rule op.rule) (.rule "item")

/-- The rules for items, expressions and operations. -/
def definitions (table : OperatorTable) : List Definition :=
  ⟨"item", .plain 0 (.term (.pattern Arithmetic.number))⟩ :: ⟨"expr", .plain 0 table.phrase⟩ ::
    table.operators.map Operator.definition

theorem mem_variants_phrase {own : Bound} {v : Phrase × Bound} :
    v ∈ table.phrase.variants own ↔ ∃ name, table.Operand name ∧ v = (.rule name, own) := by
  have h : ∀ (ops : List Operator) (e : Phrase),
      (ops.foldl (fun e op => e ||| .rule op.rule) e).variants own =
        e.variants own ++ ops.map fun op => (.rule op.rule, own) := by
    intro ops
    induction ops with
    | nil => simp
    | cons op ops ih =>
      intro e
      rw [List.foldl_cons, ih, Phrase.variants_orElse]
      simp [Phrase.variants]
  rw [phrase, h]
  constructor
  · intro hv
    rcases List.mem_append.mp hv with hv | hv
    · exact ⟨"item", .inl rfl, List.mem_singleton.mp hv⟩
    · obtain ⟨op, ho, rfl⟩ := List.mem_map.mp hv
      exact ⟨op.rule, .inr ⟨op, ho, rfl⟩, rfl⟩
  · intro h
    obtain ⟨name, rfl | ⟨op, ho, rfl⟩, rfl⟩ := h
    · exact List.mem_append_left _ (List.mem_singleton.mpr rfl)
    · exact List.mem_append_right _ (List.mem_map.mpr ⟨op, ho, rfl⟩)

theorem mem_leftmost_phrase {name : RuleName} : name ∈ table.phrase.leftmost ↔ table.Operand name := by
  have h : ∀ (ops : List Operator) (e : Phrase),
      name ∈ (ops.foldl (fun e op => e ||| .rule op.rule) e).leftmost ↔
        name ∈ e.leftmost ∨ ∃ op ∈ ops, name = op.rule := by
    intro ops
    induction ops with
    | nil => simp
    | cons op ops ih =>
      intro e
      rw [List.foldl_cons, ih, Phrase.mem_leftmost_orElse]
      simp [Phrase.leftmost, or_assoc]
  rw [phrase, h]
  simp [Phrase.leftmost, Operand]

variable {ds : List Definition} (hds : ds.Perm table.definitions) (name : String)

include hds

theorem mem_iff_of_perm {d : Definition} : d ∈ ds ↔
    d = ⟨"item", .plain 0 (.term (.pattern Arithmetic.number))⟩ ∨ d = ⟨"expr", .plain 0 table.phrase⟩ ∨
      ∃ op ∈ table.operators, d = op.definition := by
  rw [hds.mem_iff, definitions, List.mem_cons, List.mem_cons, List.mem_map]
  simp only [eq_comm]

theorem cases_offers {rule : RuleName} {a : Alternative} (ha : (Grammar.ofDefinitions name ds).Offers rule a) :
    Definition.mk rule a = ⟨"item", .plain 0 (.term (.pattern Arithmetic.number))⟩ ∨
      Definition.mk rule a = ⟨"expr", .plain 0 table.phrase⟩ ∨
      ∃ op ∈ table.operators, Definition.mk rule a = op.definition :=
  (mem_iff_of_perm hds).mp (Grammar.offers_ofDefinitions.mp ha)

/-- The order of the definitions does not matter. -/
theorem readBy {own : Bound} (h : own.admits 0) : table.ReadBy (.ofDefinitions name ds) "expr" own [] := by
  have hexpr : (⟨"expr", .plain 0 table.phrase⟩ : Definition) ∈ ds := (mem_iff_of_perm hds).mpr (.inr (.inl rfl))
  have hcorner : ∀ rule, table.Operand rule → (Grammar.ofDefinitions name ds).IsCorner "expr" rule :=
    fun rule hr => Grammar.isCorner_ofDefinitions hexpr (.inr (mem_leftmost_phrase.mpr hr))
  refine ⟨?_, ?_, ?_, ?_⟩
  · exact Grammar.mem_productions_ofDefinitions ((mem_iff_of_perm hds).mpr (.inl rfl)) (hcorner _ (.inl rfl)) h
      (List.mem_singleton.mpr rfl)
  · intro rule hr
    exact Grammar.mem_productions_ofDefinitions hexpr (Grammar.isCorner_ofDefinitions hexpr (.inl rfl)) h
      (mem_variants_phrase.mpr ⟨rule, hr, rfl⟩)
  · intro op ho hop
    exact Grammar.mem_productions_ofDefinitions ((mem_iff_of_perm hds).mpr (.inr (.inr ⟨op, ho, rfl⟩)))
      (hcorner _ (.inr ⟨op, ho, rfl⟩)) hop (Operator.mem_variants_phrase.mpr rfl)
  · intro d hd
    obtain ⟨rule, level, build, e, b⟩ := d
    obtain ⟨-, a, ha, hadmits, hd⟩ := Grammar.mem_productions.mp hd
    obtain ⟨v, hv, he⟩ := List.mem_map.mp hd
    rcases cases_offers hds name ha with hdef | hdef | ⟨op, ho, hdef⟩
    · cases hdef
      obtain rfl := List.mem_singleton.mp hv
      exact .inl he.symm
    · cases hdef
      obtain ⟨rule, hr, rfl⟩ := mem_variants_phrase.mp hv
      exact .inr (.inl ⟨rule, hr, he.symm⟩)
    · cases hdef
      obtain rfl := Operator.mem_variants_phrase.mp hv
      exact .inr (.inr (.inl ⟨op, ho, hadmits, he.symm⟩))

theorem ranked : (Grammar.ofDefinitions name ds).Ranked Arithmetic.rank 2 where
  rank_le rule := Nat.le_of_lt (Arithmetic.rank_lt_two rule)
  rank_lt rule _ _ := Arithmetic.rank_lt_two rule
  lone rule a corner v own ha hv hl := by
    rcases cases_offers hds name ha with hdef | hdef | ⟨op, ho, hdef⟩
    · cases hdef
      obtain rfl := List.mem_singleton.mp hv
      exact (Phrase.not_lone_term _ hl).elim
    · cases hdef
      obtain ⟨rule, hr, rfl⟩ := mem_variants_phrase.mp hv
      obtain rfl := hl.eq_of_rule
      exact Arithmetic.rank_expr_lt hr.ne_expr
    · cases hdef
      obtain rfl := Operator.mem_variants_phrase.mp hv
      exact (op.not_lone_phrase hl).elim
  build rule a ha := by
    rcases cases_offers hds name ha with hdef | hdef | ⟨op, -, hdef⟩
    all_goals cases hdef; exact .inl rfl

theorem two_le_length : 2 ≤ (Grammar.ofDefinitions name ds).rules.length := by
  have hitem : "item" ∈ (Grammar.ofDefinitions name ds).rules.names :=
    Grammar.mem_names_ofDefinitions ((mem_iff_of_perm hds).mpr (.inl rfl))
  have hexpr : "expr" ∈ (Grammar.ofDefinitions name ds).rules.names :=
    Grammar.mem_names_ofDefinitions ((mem_iff_of_perm hds).mpr (.inr (.inl rfl)))
  have hsub : ["item", "expr"] ⊆ (Grammar.ofDefinitions name ds).rules.names := by
    intro rule hr
    rcases List.mem_pair.mp hr with rfl | rfl
    · exact hitem
    · exact hexpr
  have hlen := List.Nodup.length_le_of_subset (by decide) hsub
  rwa [RuleTable.names, List.length_map] at hlen

end OperatorTable

end LeftCorner
