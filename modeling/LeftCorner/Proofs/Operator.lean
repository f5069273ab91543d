import LeftCorner.Arithmetic
import LeftCorner.Proofs.Termination

/-!
# Binary operators

A binary operator is a rule for two expressions with a token between. It binds at the limit of the bound on its
right operand, which is thus *below* or *at most* its own level. An operand is a number, reduced to an item, or
itself an operation; either is reduced to an expression before anything else happens to it.

What an attempt at an operation does depends on the front: it goes on behind an expression with the operator's
token, and otherwise it fails and changes nothing.
-/

namespace LeftCorner

/-- A binary operator on expressions. The left operand may have a bound, or none. -/
structure Operator where
  rule : RuleName
  token : String
  left? : Option Bound
  right : Bound
  rule_ne_item : rule ≠ "item" := by decide
  rule_ne_expr : rule ≠ "expr" := by decide
  token_ne_endMarker : token ≠ Pending.endMarker := by decide
  not_number : Arithmetic.number.accepts token = false := by decide
  limit_pos : 0 < right.limit := by decide
  limit_le : right.limit ≤ 100 := by decide

namespace Operator

/-- The level at which an operator binds. -/
def level (op : Operator) : Level := op.right.limit

def phrase (op : Operator) : Phrase :=
  op.left?.elim Arithmetic.operand (.bounded Arithmetic.operand) + op.token +
    .bounded Arithmetic.operand op.right

def definition (op : Operator) : Definition := ⟨op.rule, .plain op.level op.phrase⟩

def production (op : Operator) (own : Bound) : Production := ⟨op.rule, op.level, .tree, op.phrase, own⟩

def tree (op : Operator) (l r : Tree) : Tree := ⟨op.rule, op.level, [l.toNode, .terminal op.token, r.toNode]⟩

variable {op : Operator} {own : Bound} {call : RuleParser} {q rest : Pending} {t r : Tree}

theorem leaves_tree {l r : Tree} : (op.tree l r).leaves = l.leaves ++ op.token :: r.leaves := by
  simp [tree, Tree.leaves, Tree.toNode, Node.leavesAll, Node.leaves]

theorem token_eq_of_tree_eq {op' : Operator} {l r l' r' : Tree} (h : op.tree l r = op'.tree l' r') :
    op.token = op'.token ∧ l = l' ∧ r = r' := by
  have hc : [l.toNode, .terminal op.token, r.toNode] = [l'.toNode, .terminal op'.token, r'.toNode] :=
    congrArg Tree.children h
  simp only [List.cons.injEq, Tree.toNode_inj, Node.terminal.injEq] at hc
  exact ⟨hc.2.1, hc.1, hc.2.2.1⟩

/-- The left operand: an expression, with a bound or without. -/
theorem phrase_eq (op : Operator) :
    op.phrase = .sequence [op.left?.elim Arithmetic.operand (.bounded Arithmetic.operand), .literal op.token,
      .bounded Arithmetic.operand op.right] := by
  cases h : op.left? <;> simp only [phrase, h] <;> rfl

theorem mem_variants_phrase {v : Phrase × Bound} : v ∈ op.phrase.variants own ↔ v = (op.phrase, own) := by
  rw [phrase_eq]
  exact List.mem_singleton

theorem not_lone_phrase (op : Operator) {name : RuleName} : ¬ op.phrase.Lone name := by
  rw [phrase_eq]
  exact Phrase.not_lone_sequence List.mem_cons_self

theorem corner?_phrase : op.phrase.corner? (.node t.toNode :: q) =
    if t.rule = "expr" then some (.node t.toNode, q) else none := by
  rw [phrase_eq]
  cases op.left? with
  | none => exact Phrase.corner?_rule_toNode
  | some b => exact Phrase.corner?_rule_toNode

theorem complete_left {n : Node} :
    (op.left?.elim Arithmetic.operand (.bounded Arithmetic.operand)).complete call (.node n) own q =
      .matched [n] q := by
  cases op.left? <;> rfl

theorem attempt_token {s : String} :
    (op.production own).attempt call (.token s :: q) = .failed (.token s :: q) := by
  apply Production.attempt_of_corner?_eq_none
  rw [production, phrase_eq]
  cases op.left? <;> rfl

theorem attempt_matched (ht : t.rule = "expr") (h : call "expr" op.right q = .matched r rest) :
    (op.production own).attempt call (.node t.toNode :: .token op.token :: q) =
      .matched (op.tree t r).toNode rest := by
  have hr : Phrase.parseEach call [.literal op.token, .bounded Arithmetic.operand op.right] own
      (.token op.token :: q) = .matched [.terminal op.token, r.toNode] rest := by
    simp [Phrase.parseEach, Phrase.parse_literal, Phrase.parse, Arithmetic.operand, h, Attempt.followedBy]
  apply Production.attempt_of_matched (corner?_phrase.trans (if_pos ht))
  rw [production, phrase_eq]
  exact Phrase.complete_sequence_of_matched complete_left hr

/-- Without a right operand the operator's token is put back, in front of what the attempt at the operand left. -/
theorem attempt_failed (ht : t.rule = "expr") (h : call "expr" op.right q = .failed rest) :
    (op.production own).attempt call (.node t.toNode :: .token op.token :: q) =
      .failed (.node t.toNode :: .token op.token :: rest) := by
  have hr : Phrase.parseEach call [.literal op.token, .bounded Arithmetic.operand op.right] own
      (.token op.token :: q) = .failed (.token op.token :: rest) := by
    simp [Phrase.parseEach, Phrase.parse_literal, Phrase.parse, Arithmetic.operand, h, Attempt.followedBy,
      Pending.restore, Item.ofMatched]
  apply Production.attempt_of_failed (corner?_phrase.trans (if_pos ht))
  rw [production, phrase_eq]
  exact Phrase.complete_sequence_of_failed complete_left hr

theorem attempt_other (ht : t.rule ≠ "expr") :
    (op.production own).attempt call (.node t.toNode :: q) = .failed (.node t.toNode :: q) :=
  Production.attempt_of_corner?_eq_none (corner?_phrase.trans (if_neg ht))

theorem attempt_idle (h : ∀ q', q ≠ .token op.token :: q') :
    (op.production own).attempt call (.node t.toNode :: q) = .failed (.node t.toNode :: q) := by
  by_cases ht : t.rule = "expr"
  · have hr : Phrase.parseEach call [.literal op.token, .bounded Arithmetic.operand op.right] own q = .failed q := by
      rw [Phrase.parseEach, Phrase.parse_literal_of_ne h]
      rfl
    apply Production.attempt_of_failed (corner?_phrase.trans (if_pos ht))
    rw [production, phrase_eq]
    exact Phrase.complete_sequence_of_failed complete_left hr
  · exact attempt_other ht

end Operator

namespace Arithmetic

/-- A token that is a number. -/
abbrev Number := { token : String // number.accepts token }

/-- A number that was reduced to an item. -/
def itemTree (token : String) : Tree := ⟨"item", 0, [.terminal token]⟩

/-- A tree that was reduced to an expression. -/
def exprTree (t : Tree) : Tree := ⟨"expr", 0, [t.toNode]⟩

@[simp] theorem leaves_exprTree {t : Tree} : (exprTree t).leaves = t.leaves := by
  simp [exprTree, Tree.leaves, Tree.toNode, Node.leavesAll, Node.leaves]

theorem itemTree_inj {s s' : String} : itemTree s = itemTree s' ↔ s = s' := by simp [itemTree]

theorem exprTree_inj {t t' : Tree} : exprTree t = exprTree t' ↔ t = t' := by simp [exprTree]

/-- Expressions rank below the trees they are made of. -/
def rank (name : RuleName) : Nat := if name = "expr" then 0 else 1

theorem rank_lt_two (name : RuleName) : rank name < 2 := by
  unfold rank
  split <;> decide

theorem rank_expr_lt {name : RuleName} (h : name ≠ "expr") : rank "expr" < rank name := by
  rw [rank, rank, if_pos rfl, if_neg h]
  exact Nat.one_pos

def itemProduction (own : Bound) : Production := ⟨"item", 0, .tree, .term (.pattern number), own⟩

/-- The production that makes an expression of the trees of a rule. -/
def exprProduction (name : RuleName) (own : Bound) : Production := ⟨"expr", 0, .tree, .rule name, own⟩

variable {own : Bound} {call : RuleParser} {q : Pending} {t : Tree} {s : String} {name : RuleName}

theorem attempt_itemProduction (hs : number.accepts s) :
    (itemProduction own).attempt call (.token s :: q) = .matched (itemTree s).toNode q := by
  have hl : (itemProduction own).phrase.corner? (.token s :: q) = some (.token s, q) := by
    simp [itemProduction, Phrase.corner?, Pending.takeToken?, Term.accepts, hs]
  exact Production.attempt_of_matched hl rfl

theorem attempt_itemProduction_of_not (hs : ¬ number.accepts s) :
    (itemProduction own).attempt call (.token s :: q) = .failed (.token s :: q) := by
  apply Production.attempt_of_corner?_eq_none
  simp [itemProduction, Phrase.corner?, Pending.takeToken?, Term.accepts, hs]

theorem attempt_exprProduction (ht : t.rule = name) :
    (exprProduction name own).attempt call (.node t.toNode :: q) = .matched (exprTree t).toNode q :=
  Production.attempt_of_matched (Phrase.corner?_rule_toNode.trans (if_pos ht)) rfl

theorem attempt_exprProduction_of_ne (ht : t.rule ≠ name) :
    (exprProduction name own).attempt call (.node t.toNode :: q) = .failed (.node t.toNode :: q) :=
  Production.attempt_of_corner?_eq_none (Phrase.corner?_rule_toNode.trans (if_neg ht))

end Arithmetic

end LeftCorner
