import LeftCorner.Proofs.ArithmeticRules

/-!
# Precedence climbing

The usual way to read arithmetic goes from left to right and never looks back. A primary is a number, or an expression
in parentheses. An expression under a bound is a primary that is extended for as long as an operator follows that the
bound admits and that has a right operand: an expression under the operator's own bound. Operators group to the left,
and one without a right operand is not read.
-/

namespace LeftCorner.Arithmetic

/-- The tree of an expression at the front of some tokens, and the tokens behind it, of which there are fewer. -/
structure Reading (ts : List String) where
  tree : Tree
  rest : List String
  shorter : rest.length < ts.length
  rule_eq : tree.rule = "expr" := by rfl
  level_eq : tree.level = 0 := by rfl

variable {ts : List String}

/-- What was read behind an opening parenthesis is in parentheses if the closing one follows. -/
def Reading.close? (inside : Reading ts) (s : String) : Option (Reading (s :: ts)) :=
  if inside.rest.head? = some ")" then
    some { inside with
      rest := inside.rest.tail
      shorter := by
        have h := inside.shorter
        simp only [List.length_tail, List.length_cons]
        omega }
  else none

/-- An operator and its right operand behind what was read make an operation. -/
def Reading.fold (left : Reading ts) (op : Operator) {s : String} {rest : List String} (h : left.rest = s :: rest)
    (right : Reading rest) : Reading ts where
  tree := exprTree (op.tree left.tree right.tree)
  rest := right.rest
  shorter := by
    have hleft := left.shorter
    have hright := right.shorter
    rw [h, List.length_cons] at hleft
    omega

/-- The operator that a token stands for. -/
def operator? (s : String) : Option Operator := operators.operators.find? (·.token = s)

mutual

/-- Reads a primary, and all operators behind it that the bound admits and that have a right operand. -/
def climb (own : Bound) (ts : List String) : Option (Reading ts) :=
  if own.admits 0 then (primary? ts).map fun left => extend own left else none
termination_by (ts.length, 1)
decreasing_by
  · exact Prod.Lex.left _ _ left.shorter
  · exact Prod.Lex.right _ Nat.zero_lt_one

/-- Reads a number, or an expression in parentheses under the widest bound. -/
def primary? : (ts : List String) → Option (Reading ts)
  | [] => none
  | s :: ts =>
    if number.accepts s then some ⟨exprTree (itemTree s), ts, Nat.lt_succ_self _, rfl, rfl⟩
    else if s = "(" then (climb (.atMost 100) ts).bind (·.close? s)
    else none
termination_by ts => (ts.length, 0)
decreasing_by exact Prod.Lex.left _ _ (Nat.lt_succ_self _)

/-- Goes on behind a left operand, which takes in operators and their right operands one by one. -/
def extend (own : Bound) {ts : List String} (left : Reading ts) : Reading ts :=
  match h : left.rest with
  | [] => left
  | s :: rest =>
    match operator? s with
    | none => left
    | some op =>
      if own.admits op.level then
        match climb op.right rest with
        | none => left
        | some right => extend own (left.fold op h right)
      else left
termination_by (left.rest.length, 0)
decreasing_by
  · rw [h]
    exact Prod.Lex.left _ _ (Nat.lt_succ_self _)
  · rw [h]
    exact Prod.Lex.left _ _ (Nat.lt_succ_of_lt right.shorter)

end

theorem operator?_eq_some {s : String} {op : Operator} :
    operator? s = some op ↔ op ∈ operators.operators ∧ op.token = s := by
  constructor
  · intro h
    exact ⟨List.mem_of_find?_eq_some h, by simpa using List.find?_some h⟩
  · intro h
    obtain ⟨ho, rfl⟩ := h
    cases hf : operator? op.token with
    | none =>
      have hne : ¬ op.token = op.token := by simpa using List.find?_eq_none.mp hf op ho
      exact (hne rfl).elim
    | some op' =>
      have ht : op'.token = op.token := by simpa using List.find?_some hf
      rw [operators.eq_of_token (List.mem_of_find?_eq_some hf) ho ht]

theorem Reading.close?_eq_some {inside : Reading ts} {s : String} {left : Reading (s :: ts)}
    (h : inside.close? s = some left) : inside.rest = ")" :: left.rest ∧ left.tree = inside.tree := by
  rw [close?] at h
  split at h
  next hhead =>
    cases h
    exact ⟨List.eq_cons_of_mem_head? hhead, rfl⟩
  next => cases h

theorem Reading.close?_eq_none {inside : Reading ts} {s : String} :
    inside.close? s = none ↔ inside.rest.head? ≠ some ")" := by
  simp [close?]

/-- A primary is a number, or what stands in parentheses. -/
theorem primary?_eq_some {s : String} {left : Reading (s :: ts)} (h : primary? (s :: ts) = some left) :
    (number.accepts s ∧ left.tree = exprTree (itemTree s) ∧ left.rest = ts) ∨
      s = "(" ∧ ∃ inside, climb (.atMost 100) ts = some inside ∧ inside.rest = ")" :: left.rest ∧
        left.tree = inside.tree := by
  rw [primary?] at h
  split at h
  next hs =>
    cases h
    exact .inl ⟨hs, rfl, rfl⟩
  next =>
    split at h
    next hs =>
      obtain ⟨inside, hi, hclose⟩ := Option.bind_eq_some_iff.mp h
      exact .inr ⟨hs, inside, hi, Reading.close?_eq_some hclose⟩
    next => cases h

theorem primary?_eq_none {s : String} (h : primary? (s :: ts) = none) :
    ¬ number.accepts s ∧
      (s = "(" → ∀ inside, climb (.atMost 100) ts = some inside → inside.rest.head? ≠ some ")") := by
  rw [primary?] at h
  split at h
  next => cases h
  next hn =>
    refine ⟨hn, fun hs inside hi => ?_⟩
    rw [if_pos hs, hi] at h
    exact Reading.close?_eq_none.mp h

theorem climb_eq_some {own : Bound} {c : Reading ts} :
    climb own ts = some c ↔ own.admits 0 ∧ ∃ left, primary? ts = some left ∧ extend own left = c := by
  rw [climb]
  split
  next h0 => simp [h0]
  next h0 => simp [h0]

theorem climb_eq_none {own : Bound} : climb own ts = none ↔ (own.admits 0 → primary? ts = none) := by
  rw [climb]
  split
  next h0 => simp [h0]
  next h0 => simp [h0]

/-- No operator behind what was read is admitted and has a right operand. -/
def Reading.Complete (own : Bound) (left : Reading ts) : Prop :=
  ∀ op ∈ operators.operators, ∀ rest, left.rest = op.token :: rest → own.admits op.level →
    climb op.right rest = none

variable {own : Bound} {op : Operator} {rest : List String}

/-- An operator that is admitted is folded with its right operand, if it has one. -/
theorem extend_fold {left : Reading ts} (ho : op ∈ operators.operators) (hop : own.admits op.level)
    (h : left.rest = op.token :: rest) {right : Reading rest} (hr : climb op.right rest = some right) :
    extend own left = extend own (left.fold op h right) := by
  have hs : operator? op.token = some op := operator?_eq_some.mpr ⟨ho, rfl⟩
  obtain ⟨t, rest', hshorter, hrule, hlevel⟩ := left
  cases h
  rw [extend]
  simp only [hs, hop, hr, if_true]

theorem extend_of_complete {left : Reading ts} (hc : left.Complete own) : extend own left = left := by
  rw [extend]
  split
  next => rfl
  next s rest h =>
    split
    next => rfl
    next op hs =>
      obtain ⟨ho, rfl⟩ := operator?_eq_some.mp hs
      split
      next hop => rw [hc op ho rest h hop]
      next => rfl

/-- Either nothing is left to take in, or an operator is, with its right operand. -/
theorem Reading.complete_or_fold (own : Bound) (left : Reading ts) :
    left.Complete own ∨ ∃ op ∈ operators.operators, own.admits op.level ∧ ∃ rest, left.rest = op.token :: rest ∧
      ∃ right, climb op.right rest = some right := by
  by_cases hc : left.Complete own
  · exact .inl hc
  · simp only [Reading.Complete, not_forall] at hc
    obtain ⟨op, ho, rest, h, hop, hr⟩ := hc
    exact .inr ⟨op, ho, hop, rest, h, Option.ne_none_iff_exists'.mp hr⟩

/-- The induction is on the tokens behind what was read, which every operation makes fewer. -/
theorem complete_extend (own : Bound) (left : Reading ts) : (extend own left).Complete own := by
  rcases left.complete_or_fold own with hc | ⟨op, ho, hop, rest, h, right, hr⟩
  · rw [extend_of_complete hc]
    exact hc
  · rw [extend_fold ho hop h hr]
    exact complete_extend own (left.fold op h right)
termination_by left.rest.length
decreasing_by
  rw [h]
  exact Nat.lt_succ_of_lt right.shorter

theorem complete_of_climb {c : Reading ts} (h : climb own ts = some c) : c.Complete own := by
  obtain ⟨-, left, -, rfl⟩ := climb_eq_some.mp h
  exact complete_extend own left

end LeftCorner.Arithmetic
