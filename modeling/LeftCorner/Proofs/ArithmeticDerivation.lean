import LeftCorner.Proofs.ArithmeticRules

/-!
# Arithmetic in layers

A *factor* is a number, or a sum in parentheses. A *product* is a factor, or a product and a factor with an
operator of level 10 between; a *sum* is a product, or a sum and a product with an operator of level 20 between.

The language is unambiguous: a derivation is known by its tokens, even as the end of a longer list, provided that
the tokens before it do not end with an operator that binds as tightly as the layer. Sums are closed under all four
operators, though not by the derivation that first comes to mind: the operands have to be regrouped.
-/

namespace LeftCorner.Arithmetic

/-- The kinds of arithmetic expressions, the tightest first. -/
inductive Layer where
  | factor
  | product
  | sum

namespace Layer

def level : Layer → Level
  | factor => 0
  | product => 10
  | sum => 20

def operators : Layer → List Operator
  | factor => []
  | product => [mul, div]
  | sum => [add, sub]

def tighter : Layer → Layer
  | factor | product => factor
  | sum => product

end Layer

theorem level_le_sum {op : Operator} (ho : op ∈ operators.operators) : op.level ≤ Layer.sum.level := by
  rcases mem_operators.mp ho with rfl | rfl | rfl | rfl <;> decide

variable {layer : Layer} {op : Operator}

theorem Layer.mem_of_mem_operators (ho : op ∈ layer.operators) :
    op ∈ Arithmetic.operators.operators ∧ op.level = layer.level := by
  cases layer with
  | factor => cases ho
  | product => rcases List.mem_pair.mp ho with rfl | rfl <;> exact ⟨by simp [Arithmetic.operators], rfl⟩
  | sum => rcases List.mem_pair.mp ho with rfl | rfl <;> exact ⟨by simp [Arithmetic.operators], rfl⟩

/-- An operator belongs to a layer, or to a tighter one, or binds more loosely. -/
theorem Layer.cases_level (layer : Layer) (ho : op ∈ Arithmetic.operators.operators) (hl : op.level ≤ layer.level) :
    op ∈ layer.operators ∨ op.level ≤ layer.tighter.level := by
  rcases mem_operators.mp ho with rfl | rfl | rfl | rfl <;> cases layer <;> first
    | exact absurd hl (by decide)
    | exact .inr (by decide)
    | exact .inl (by simp [Layer.operators])

theorem Layer.tighter_lt (h : layer ≠ .factor) : layer.tighter.level < layer.level := by
  cases layer with
  | factor => exact absurd rfl h
  | product | sum => decide

theorem Layer.tighter_le (layer : Layer) : layer.tighter.level ≤ layer.level := by
  cases layer <;> decide

/-- How tokens make up an expression of a layer. -/
inductive Derivation : Layer → Type where
  | number (n : Number) : Derivation .factor
  | group (e : Derivation .sum) : Derivation .factor
  | lone {layer : Layer} (h : layer ≠ .factor) (d : Derivation layer.tighter) : Derivation layer
  | operation {layer : Layer} (op : Operator) (ho : op ∈ layer.operators) (left : Derivation layer)
      (right : Derivation layer.tighter) : Derivation layer

namespace Derivation

def tokens {layer : Layer} : Derivation layer → List String
  | number n => [n]
  | group e => "(" :: (e.tokens ++ [")"])
  | lone _ d => d.tokens
  | operation op _ l r => l.tokens ++ op.token :: r.tokens

/-- The tree that an expression is parsed to. Parentheses leave no trace. -/
def image {layer : Layer} : Derivation layer → Tree
  | number n => exprTree (itemTree n)
  | group e => e.image
  | lone _ d => d.image
  | operation op _ l r => exprTree (op.tree l.image r.image)

theorem rule_image (d : Derivation layer) : d.image.rule = "expr" := by
  induction d with
  | number n => rfl
  | group e ih => exact ih
  | lone h d ih => exact ih
  | operation op ho l r _ _ => rfl

theorem level_image (d : Derivation layer) : d.image.level = 0 := by
  induction d with
  | number n => rfl
  | group e ih => exact ih
  | lone h d ih => exact ih
  | operation op ho l r _ _ => rfl

end Derivation

/-- The tokens do not end with an operator that binds as tightly as a layer. -/
def Layer.Clear (layer : Layer) (x : List String) : Prop :=
  ∀ op ∈ Arithmetic.operators.operators, ∀ x', x = x' ++ [op.token] → layer.level < op.level

theorem Layer.Clear.tighter {x : List String} (h : layer.Clear x) : layer.tighter.Clear x :=
  fun op ho x' hx => Nat.lt_of_le_of_lt layer.tighter_le (h op ho x' hx)

theorem Layer.not_clear (ho : op ∈ layer.operators) (x : List String) : ¬ layer.Clear (x ++ [op.token]) := by
  intro h
  obtain ⟨hm, hl⟩ := Layer.mem_of_mem_operators ho
  exact Nat.ne_of_gt (h op hm x rfl) hl

theorem Layer.ne_factor (ho : op ∈ layer.operators) : layer ≠ .factor := by
  rintro rfl
  cases ho

theorem Layer.clear_tighter (ho : op ∈ layer.operators) (x : List String) :
    layer.tighter.Clear (x ++ [op.token]) := by
  intro op' ho' x' hx
  obtain ⟨hm, hl⟩ := Layer.mem_of_mem_operators ho
  have ht : op.token = op'.token := List.singleton_inj.mp (List.append_inj' hx rfl).2
  rw [← Arithmetic.operators.eq_of_token hm ho' ht, hl]
  exact Layer.tighter_lt (Layer.ne_factor ho)

theorem Layer.clear_open (layer : Layer) (x : List String) : layer.Clear (x ++ ["("]) := by
  intro op ho x' hx
  have ht : "(" = op.token := List.singleton_inj.mp (List.append_inj' hx rfl).2
  rcases mem_operators.mp ho with rfl | rfl | rfl | rfl <;> exact absurd ht (by decide)

namespace Derivation

theorem append_tokens_group (x : List String) (e : Derivation .sum) :
    x ++ (group e).tokens = ((x ++ ["("]) ++ e.tokens) ++ [")"] := by
  simp [tokens]

theorem append_tokens_operation {layer : Layer} {op : Operator} (ho : op ∈ layer.operators) (x : List String)
    (l : Derivation layer) (r : Derivation layer.tighter) :
    x ++ (operation op ho l r).tokens = ((x ++ l.tokens) ++ [op.token]) ++ r.tokens := by
  simp [tokens]

/-- A number is no parenthesis. -/
theorem append_number_ne (x y : List String) (n : Number) : x ++ [n.1] ≠ y ++ [")"] := by
  intro h
  have hn : n.1 = ")" := List.singleton_inj.mp (List.append_inj' h rfl).2
  have hno : Arithmetic.number.accepts ")" = false := by decide
  have hyes := n.2
  rw [hn, hno] at hyes
  cases hyes

/-- Derivations that end one list of tokens are the same, and so is what stands before them. The induction is on the
derivation, and reads the tokens from the right. -/
theorem eq_of_append_tokens {layer : Layer} (d d' : Derivation layer) {x y : List String} (hx : layer.Clear x)
    (hy : layer.Clear y) (h : x ++ d.tokens = y ++ d'.tokens) : x = y ∧ d = d' := by
  induction d generalizing x y with
  | number n =>
    cases d' with
    | number m =>
      obtain ⟨hxy, hn⟩ := List.append_inj' h rfl
      exact ⟨hxy, congrArg number (Subtype.ext (List.singleton_inj.mp hn))⟩
    | group e =>
      rw [append_tokens_group] at h
      exact absurd h (append_number_ne _ _ n)
    | lone hl d' => exact absurd rfl hl
    | operation op ho l r => cases ho
  | group e ih =>
    cases d' with
    | number m =>
      rw [append_tokens_group] at h
      exact absurd h.symm (append_number_ne _ _ m)
    | group e' =>
      rw [append_tokens_group, append_tokens_group] at h
      obtain ⟨hxy, he⟩ := ih e' (Layer.clear_open _ x) (Layer.clear_open _ y) (List.append_cancel_right h)
      exact ⟨List.append_cancel_right hxy, congrArg group he⟩
    | lone hl d' => exact absurd rfl hl
    | operation op ho l r => cases ho
  | lone hl d ih =>
    cases d' with
    | number m => exact absurd rfl hl
    | group e => exact absurd rfl hl
    | lone hl' d' =>
      obtain ⟨hxy, hd⟩ := ih d' hx.tighter hy.tighter h
      exact ⟨hxy, congrArg (lone hl) hd⟩
    | operation op ho l r =>
      rw [append_tokens_operation] at h
      obtain ⟨rfl, -⟩ := ih r hx.tighter (Layer.clear_tighter ho _) h
      exact absurd hx (Layer.not_clear ho _)
  | operation op ho l r ihl ihr =>
    rw [append_tokens_operation] at h
    cases d' with
    | number m => cases ho
    | group e => cases ho
    | lone hl' d' =>
      obtain ⟨rfl, -⟩ := ihr d' (Layer.clear_tighter ho _) hy.tighter h
      exact absurd hy (Layer.not_clear ho _)
    | operation op' ho' l' r' =>
      rw [append_tokens_operation] at h
      obtain ⟨hlr, rfl⟩ := ihr r' (Layer.clear_tighter ho _) (Layer.clear_tighter ho' _) h
      obtain ⟨hxy, ht⟩ := List.append_inj' hlr rfl
      obtain rfl := operators.eq_of_token (Layer.mem_of_mem_operators ho).1 (Layer.mem_of_mem_operators ho').1
        (List.singleton_inj.mp ht)
      obtain ⟨rfl, rfl⟩ := ihl l' hx hy hxy
      exact ⟨rfl, rfl⟩

/-- Two expressions of a layer with an operator of it between, or of a tighter layer, are one again. The induction is
on the right one: whatever can be regrouped with the left one is smaller. -/
theorem exists_operation {layer : Layer} {op : Operator} (ho : op ∈ operators.operators)
    (hl : op.level ≤ layer.level) (v w : Derivation layer) :
    ∃ d : Derivation layer, d.tokens = v.tokens ++ op.token :: w.tokens := by
  induction w with
  | number n => exact absurd op.limit_pos (Nat.not_lt_of_le hl)
  | group e => exact absurd op.limit_pos (Nat.not_lt_of_le hl)
  | operation op' ho' l r ihl _ =>
    obtain ⟨d, hd⟩ := ihl hl v
    exact ⟨operation op' ho' d r, by simp [tokens, hd]⟩
  | lone hw w ih =>
    rcases Layer.cases_level _ ho hl with ho | hl
    · exact ⟨operation op ho v w, rfl⟩
    · cases v with
      | number n => exact absurd rfl hw
      | group e => exact absurd rfl hw
      | lone hv v =>
        obtain ⟨d, hd⟩ := ih hl v
        exact ⟨lone hw d, hd⟩
      | operation op' ho' l v =>
        obtain ⟨d, hd⟩ := ih hl v
        exact ⟨operation op' ho' l d, by simp [tokens, hd]⟩

def toProduct (f : Derivation .factor) : Derivation .product := lone (by simp) f

def toSum (p : Derivation .product) : Derivation .sum := lone (by simp) p

theorem eq_of_tokens_eq {d d' : Derivation .sum} (h : d.tokens = d'.tokens) : d = d' := by
  have hclear : Layer.Clear .sum [] := fun op _ x' hx => absurd hx (by simp)
  exact (eq_of_append_tokens d d' hclear hclear h).2

end Derivation

end LeftCorner.Arithmetic
