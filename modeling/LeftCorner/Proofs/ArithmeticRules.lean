import LeftCorner.Proofs.OperatorTable

/-!
# The rules of arithmetic

The four operations are an operator table with two levels. Besides their rules there are those for items, groups in
parentheses, expressions and blocks. This says which definitions there are, and what children the rules of
operations and groups license. A group hands back a child, and all else builds trees. Reductions of single trees
lead to expressions only, so they come to an end.
-/

namespace LeftCorner.Arithmetic

def add : Operator where
  rule := "add"
  token := "+"
  left? := some (.atMost 20)
  right := .below 20

def sub : Operator where
  rule := "sub"
  token := "-"
  left? := some (.atMost 20)
  right := .below 20

def mul : Operator where
  rule := "mul"
  token := "*"
  left? := some (.atMost 10)
  right := .below 10

def div : Operator where
  rule := "div"
  token := "/"
  left? := some (.atMost 10)
  right := .below 10

def operators : OperatorTable := ⟨[add, sub, mul, div], by decide⟩

theorem mem_operators {op : Operator} :
    op ∈ operators.operators ↔ op = add ∨ op = sub ∨ op = mul ∨ op = div := by
  simp [operators]

theorem right_eq_below {op : Operator} (ho : op ∈ operators.operators) : op.right = .below op.level := by
  rcases mem_operators.mp ho with rfl | rfl | rfl | rfl <;> rfl

theorem not_operator_close {op : Operator} (ho : op ∈ operators.operators) : op.token ≠ ")" := by
  rcases mem_operators.mp ho with rfl | rfl | rfl | rfl <;> decide

theorem not_operator_open {op : Operator} (ho : op ∈ operators.operators) : op.token ≠ "(" := by
  rcases mem_operators.mp ho with rfl | rfl | rfl | rfl <;> decide

theorem rule_ne_of_operator {op : Operator} (ho : op ∈ operators.operators) :
    op.rule ≠ "subexpr" ∧ op.rule ≠ "block" := by
  rcases mem_operators.mp ho with rfl | rfl | rfl | rfl <;> decide

/-- What is reduced to an expression. -/
def options : List RuleName := ["subexpr", "item", "add", "sub", "mul", "div"]

theorem mem_definitions {d : Definition} : d ∈ definitions ↔
    d = ⟨"item", .plain 0 (.term (.pattern number))⟩ ∨ (∃ op ∈ operators.operators, d = op.definition) ∨
      d = ⟨"subexpr", ⟨0, "(" + operand.upTo 100 + ")", .middle⟩⟩ ∨
      d = ⟨"expr", .plain 0 (.choice (options.map .rule))⟩ ∨
      d = ⟨"block", .plain 0 (operand + Pending.endMarker)⟩ := by
  have h : definitions = [⟨"item", .plain 0 (.term (.pattern number))⟩, add.definition, sub.definition,
      mul.definition, div.definition, ⟨"subexpr", ⟨0, "(" + operand.upTo 100 + ")", .middle⟩⟩,
      ⟨"expr", .plain 0 (.choice (options.map .rule))⟩, ⟨"block", .plain 0 (operand + Pending.endMarker)⟩] := rfl
  rw [h]
  simp [operators, or_assoc]

theorem mem_variants_options {own : Bound} {v : Phrase × Bound} :
    v ∈ (Phrase.choice (options.map .rule)).variants own ↔ ∃ name ∈ options, v = (.rule name, own) := by
  rw [Phrase.variants, Phrase.variantsOfEach_eq_flatMap]
  simp [Phrase.variants, options]

theorem mem_options {name : RuleName} : name ∈ options ↔ name = "subexpr" ∨ operators.Operand name := by
  simp [options, OperatorTable.Operand, operators, add, sub, mul, div]

variable {rule : RuleName} {a : Alternative} {level : Level} {children : List Node} {build : Constructor}

/-- Each alternative is that of a number, an operation, a group, an expression or a block. -/
theorem cases_offers (ha : grammar.Offers rule a) :
    Definition.mk rule a = ⟨"item", .plain 0 (.term (.pattern number))⟩ ∨
      (∃ op ∈ operators.operators, Definition.mk rule a = op.definition) ∨
      Definition.mk rule a = ⟨"subexpr", ⟨0, "(" + operand.upTo 100 + ")", .middle⟩⟩ ∨
      Definition.mk rule a = ⟨"expr", .plain 0 (.choice (options.map .rule))⟩ ∨
      Definition.mk rule a = ⟨"block", .plain 0 (operand + Pending.endMarker)⟩ :=
  mem_definitions.mp (Grammar.offers_ofDefinitions.mp ha)

theorem plain_or_group (ha : grammar.Offers rule a) :
    a.build = Constructor.tree ∨ a = ⟨0, "(" + operand.upTo 100 + ")", .middle⟩ := by
  rcases cases_offers ha with hd | ⟨op, -, hd⟩ | hd | hd | hd
  all_goals cases hd
  · exact .inl rfl
  · exact .inl rfl
  · exact .inr rfl
  · exact .inl rfl
  · exact .inl rfl

theorem eq_of_licenses_operation {op : Operator}
    (h : Alternative.Licenses ⟨level, op.phrase, build⟩ children) :
    ∃ l cs l' cs', children = [.tree "expr" l cs, .terminal op.token, .tree "expr" l' cs'] := by
  obtain ⟨parts, hd, rfl, -⟩ := h
  rw [Operator.phrase_eq] at hd
  obtain ⟨front, token, back, rfl, hleft, htoken, hright⟩ := Phrase.derives_triple.mp hd
  obtain rfl := Phrase.derives_literal.mp htoken
  obtain ⟨l', cs', rfl⟩ := Phrase.derives_rule.mp (Phrase.derives_bounded.mp hright)
  cases hl : op.left? with
  | none =>
    rw [hl] at hleft
    obtain ⟨l, cs, rfl⟩ := Phrase.derives_rule.mp hleft
    exact ⟨l, cs, l', cs', rfl⟩
  | some b =>
    rw [hl] at hleft
    obtain ⟨l, cs, rfl⟩ := Phrase.derives_rule.mp (Phrase.derives_bounded.mp hleft)
    exact ⟨l, cs, l', cs', rfl⟩

/-- A group has an opening parenthesis, one tree and a closing parenthesis for children. -/
theorem eq_of_licenses_group
    (h : Alternative.Licenses ⟨level, "(" + operand.upTo 100 + ")", build⟩ children) :
    ∃ l cs, children = [.terminal "(", .tree "expr" l cs, .terminal ")"] := by
  obtain ⟨parts, hd, rfl, -⟩ := h
  obtain ⟨front, inside, back, rfl, hopen, hinside, hclose⟩ := Phrase.derives_triple.mp hd
  obtain rfl := Phrase.derives_literal.mp hopen
  obtain ⟨l, cs, rfl⟩ := Phrase.derives_rule.mp (Phrase.derives_bounded.mp hinside)
  obtain rfl := Phrase.derives_literal.mp hclose
  exact ⟨l, cs, rfl⟩

/-- No chain of reductions of single trees comes back to its start. -/
theorem ranked : grammar.Ranked rank 2 where
  rank_le rule := Nat.le_of_lt (rank_lt_two rule)
  rank_lt rule _ _ := rank_lt_two rule
  lone rule a corner v own ha hv hl := by
    rcases cases_offers ha with hd | ⟨op, ho, hd⟩ | hd | hd | hd
    all_goals cases hd
    · obtain rfl := List.mem_singleton.mp hv
      exact (Phrase.not_lone_term _ hl).elim
    · obtain rfl := Operator.mem_variants_phrase.mp hv
      exact (op.not_lone_phrase hl).elim
    · obtain rfl := List.mem_singleton.mp hv
      exact (Phrase.not_lone_sequence (by decide : Phrase.literal ")" ∈ [operand.upTo 100, .literal ")"]) hl).elim
    · obtain ⟨name, hn, rfl⟩ := mem_variants_options.mp hv
      obtain rfl := hl.eq_of_rule
      exact rank_expr_lt (ne_of_mem_of_not_mem hn (by decide))
    · obtain rfl := List.mem_singleton.mp hv
      exact (Phrase.not_lone_sequence List.mem_cons_self hl).elim
  build rule a ha := by
    rcases plain_or_group ha with hb | rfl
    · exact .inl hb
    · exact .inr rfl

end LeftCorner.Arithmetic
