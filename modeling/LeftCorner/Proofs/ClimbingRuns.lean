import Mathlib
import LeftCorner.Proofs.ArithmeticParsing
import LeftCorner.Proofs.Climbing

/-!
# Parsing arithmetic is precedence climbing

A failed attempt at an operand leaves reductions behind, so that the next attempt does not find raw tokens. But all
that stays reduced is what stands behind an opening parenthesis that is not closed, one whole expression under the
widest bound. Such a residue is read as the tokens would be: that expression cannot be extended, and so the
parenthesis still lacks its closing one.

The tokens that are left bound the induction. Whatever a run reads within another one starts behind the front.
-/

namespace LeftCorner.Arithmetic

/-- What tokens become when attempts at them fail. Behind an opening parenthesis that is not closed, the expression
may have been read. -/
inductive Residue : Pending → List String → Prop where
  | nil : Residue [] []
  | token {p ts} (s : String) (h : Residue p ts) : Residue (.token s :: p) (s :: ts)
  | unclosed {p ts} {inside : Reading ts} (hi : climb (.atMost 100) ts = some inside)
      (hc : inside.rest.head? ≠ some ")") (h : Residue p inside.rest) :
      Residue (.token "(" :: .node inside.tree.toNode :: p) ("(" :: ts)

variable {own : Bound} {p q : Pending} {ts : List String} {s : String}

theorem residue_tokens (ts : List String) : Residue (ts.map .token) ts := by
  induction ts with
  | nil => exact .nil
  | cons s ts ih => exact ih.token s

theorem Residue.eq_nil (h : Residue p []) : p = [] := by
  cases h
  rfl

/-- The first token stays a raw token. -/
theorem Residue.exists_token (h : Residue p (s :: ts)) : ∃ q, p = .token s :: q := by
  cases h with
  | token s h => exact ⟨_, rfl⟩
  | unclosed hi hc h => exact ⟨_, rfl⟩

theorem Residue.head?_eq (h : Residue p ts) : p.head? = ts.head?.map .token := by
  cases h <;> rfl

/-- A token that is no opening parenthesis has a residue of the tokens behind it behind it. -/
theorem Residue.exists_behind (hs : s ≠ "(") (h : Residue p (s :: ts)) :
    ∃ q, p = .token s :: q ∧ Residue q ts := by
  cases h with
  | token s h => exact ⟨_, rfl, h⟩
  | unclosed hi hc h => exact absurd rfl hs

theorem Residue.eq_cons (hs : s ≠ "(") (h : Residue (.token s :: q) ts) :
    ∃ rest, ts = s :: rest ∧ Residue q rest := by
  cases h with
  | token s h => exact ⟨_, rfl, h⟩
  | unclosed hi hc h => exact absurd rfl hs

/-- A run on any residue of some tokens does what climbing does on the tokens. -/
structure Follows (own : Bound) (ts : List String) : Prop where
  matched : ∀ {p c}, Residue p ts → climb own ts = some c →
    ∃ rest, grammar.settled "expr" own p = .matched c.tree rest ∧ Residue rest c.rest
  failed : ∀ {p}, Residue p ts → climb own ts = none →
    ∃ rest, grammar.settled "expr" own p = .failed rest ∧ Residue rest ts

/-- Runs on fewer tokens do what climbing does. -/
def FollowsBehind (ts : List String) : Prop := ∀ ts' : List String, ts'.length < ts.length → ∀ own, Follows own ts'

theorem FollowsBehind.tail (h : FollowsBehind (s :: ts)) : FollowsBehind ts :=
  fun ts' hlt => h ts' (Nat.lt_succ_of_lt hlt)

/-- What stands behind an operator behind a left operand is shorter. -/
theorem FollowsBehind.operand (h : FollowsBehind ts) {left : Reading ts} {rest : List String}
    (hrest : left.rest = s :: rest) : Follows own rest := by
  have hshorter := left.shorter
  rw [hrest] at hshorter
  exact h rest (Nat.lt_of_succ_lt hshorter) own

theorem Reading.idle_others (left : Reading ts) {d : Production} (hd : d ∈ others own) :
    d.Idle (.node left.tree.toNode :: q) :=
  others_idle_node hd (left.rule_eq ▸ by decide)

/-- A left operand that cannot be extended is taken. Operators are tried in vain behind it. -/
theorem settled_complete (hbehind : FollowsBehind ts) {left : Reading ts} (h0 : own.admits 0)
    (hc : left.Complete own) (h : Residue p left.rest) :
    ∃ rest, grammar.settled "expr" own (.node left.tree.toNode :: p) = .matched left.tree rest ∧
      Residue rest left.rest := by
  have hkeeps : ∀ d ∈ grammar.productions "expr" own, ∀ q,
      (∃ rest, q = .node left.tree.toNode :: rest ∧ Residue rest left.rest) →
      ∃ q', d.attempt grammar.settled q = .failed q' ∧
        ∃ rest, q' = .node left.tree.toNode :: rest ∧ Residue rest left.rest := by
    rintro d hd q ⟨rest, rfl, hrest⟩
    rcases (readBy_expr h0).only d hd with rfl | ⟨name, hn, rfl⟩ | ⟨op, ho, hop, rfl⟩ | hd
    · exact ⟨_, rfl, rest, rfl, hrest⟩
    · exact ⟨_, attempt_exprProduction_of_ne (left.rule_eq ▸ hn.ne_expr.symm), rest, rfl, hrest⟩
    · by_cases ht : ∃ q', rest = .token op.token :: q'
      · obtain ⟨q', rfl⟩ := ht
        obtain ⟨ts', hts, hq'⟩ := hrest.eq_cons (not_operator_open ho)
        obtain ⟨rest', hr, hrest'⟩ := (hbehind.operand hts).failed hq' (hc op ho ts' hts hop)
        exact ⟨_, Operator.attempt_failed left.rule_eq hr, _, rfl, hts ▸ hrest'.token op.token⟩
      · exact ⟨_, Operator.attempt_idle fun q' hq => ht ⟨q', hq⟩, rest, rfl, hrest⟩
    · exact ⟨_, left.idle_others hd _, rest, rfl, hrest⟩
  obtain ⟨_, hr, rest, rfl, hrest⟩ := Production.attemptFirst_of_keeps hkeeps ⟨p, rfl, h⟩
  refine ⟨rest, Grammar.settled_of_failed hr (Pending.takeTree?_eq_some.mpr ⟨rfl, ?_⟩), hrest⟩
  rw [left.rule_eq, left.level_eq, h0]
  rfl

/-- Behind a left operand the operators are reduced with their right operands one by one. The induction is on the
tokens behind the left operand. -/
theorem settled_extend (hbehind : FollowsBehind ts) (left : Reading ts) (h0 : own.admits 0) {p : Pending}
    (h : Residue p left.rest) :
    ∃ rest, grammar.settled "expr" own (.node left.tree.toNode :: p) = .matched (extend own left).tree rest ∧
      Residue rest (extend own left).rest := by
  rcases left.complete_or_fold own with hc | ⟨op, ho, hop, rest, hrest, right, hr⟩
  · rw [extend_of_complete hc]
    exact settled_complete hbehind h0 hc h
  · rw [hrest] at h
    obtain ⟨q, rfl, hq⟩ := h.exists_behind (not_operator_open ho)
    obtain ⟨q', hright, hq'⟩ := (hbehind.operand hrest).matched hq hr
    have htree : (op.tree left.tree right.tree).rule ≠ "subexpr" := (rule_ne_of_operator ho).1
    rw [extend_fold ho hop hrest hr, (readBy_expr h0).settled_operation ho hop left.rule_eq hright
      (fun d hd => left.idle_others hd) fun d hd => others_idle_node hd htree]
    exact settled_extend hbehind (left.fold op hrest right) h0 hq'
termination_by left.rest.length
decreasing_by
  rw [hrest]
  exact Nat.lt_succ_of_lt right.shorter

/-- Behind an opening parenthesis, tokens and a whole expression are read alike. -/
theorem Residue.inside (hbehind : FollowsBehind ("(" :: ts)) (h : Residue (.token "(" :: q) ("(" :: ts)) :
    (∀ inside, climb (.atMost 100) ts = some inside →
        ∃ rest, grammar.settled "expr" (.atMost 100) q = .matched inside.tree rest ∧ Residue rest inside.rest) ∧
      (climb (.atMost 100) ts = none →
        ∃ rest, grammar.settled "expr" (.atMost 100) q = .failed rest ∧ Residue rest ts) := by
  cases h with
  | token s h =>
    have hf := hbehind ts (Nat.lt_succ_self _) (.atMost 100)
    exact ⟨fun _ => hf.matched h, hf.failed h⟩
  | @unclosed p _ inside hi hc h =>
    rw [hi]
    refine ⟨?_, nofun⟩
    rintro _ ⟨⟩
    exact settled_complete hbehind.tail rfl (complete_of_climb hi) h

/-- A primary is reduced in place. -/
theorem settled_primary (hbehind : FollowsBehind ts) (h0 : own.admits 0) (h : Residue p ts) {left : Reading ts}
    (hp : primary? ts = some left) :
    ∃ q, grammar.settled "expr" own p = grammar.settled "expr" own (.node left.tree.toNode :: q) ∧
      Residue q left.rest := by
  cases ts with
  | nil => cases left.shorter
  | cons s ts =>
    rcases primary?_eq_some hp with ⟨hs, htree, hrest⟩ | ⟨rfl, inside, hi, hrest, htree⟩
    · have hitem : (itemTree s).rule ≠ "subexpr" := (by decide : "item" ≠ "subexpr")
      obtain ⟨q, rfl, hq⟩ := h.exists_behind (ne_open_of_number hs)
      rw [htree, hrest]
      refine ⟨q, ?_, hq⟩
      exact (readBy_expr h0).settled_number hs (fun d hd => others_idle_number hd hs)
        fun d hd => others_idle_node hd hitem
    · obtain ⟨q, rfl⟩ := h.exists_token
      obtain ⟨rest, hinside, hr⟩ := (h.inside hbehind).1 inside hi
      rw [hrest] at hr
      obtain ⟨q', rfl, hq'⟩ := hr.exists_behind (by decide)
      rw [htree]
      exact ⟨q', settled_group (.inl rfl) h0 hinside, hq'⟩

/-- Without a primary an attempt at a group fails. The expression behind the opening parenthesis may now have been
read, or read once more. -/
theorem attempt_group_keeps (hbehind : FollowsBehind (s :: ts)) (hp : primary? (s :: ts) = none)
    (h : Residue p (s :: ts)) :
    ∃ rest, (groupProduction own).attempt grammar.settled p = .failed rest ∧ Residue rest (s :: ts) := by
  obtain ⟨q, rfl⟩ := h.exists_token
  by_cases hs : s = "("
  · subst hs
    obtain ⟨hmatched, hfailed⟩ := h.inside hbehind
    cases hi : climb (.atMost 100) ts with
    | none =>
      obtain ⟨rest, hr, hrest⟩ := hfailed hi
      exact ⟨_, attempt_groupProduction_of_failed hr, hrest.token "("⟩
    | some inside =>
      obtain ⟨rest, hr, hrest⟩ := hmatched inside hi
      have hclose : inside.rest.head? ≠ some ")" := (primary?_eq_none hp).2 rfl inside hi
      have hnext : ∀ q', rest ≠ .token ")" :: q' := by
        rintro q' rfl
        obtain ⟨_, he, -⟩ := hrest.eq_cons (by decide)
        rw [he] at hclose
        exact hclose rfl
      exact ⟨_, attempt_groupProduction_unclosed hr hnext, .unclosed hi hclose hrest⟩
  · exact ⟨_, groupProduction_idle hs _, h⟩

/-- Where climbing fails, all productions fail. The front stays a raw token, which is no tree to be taken. -/
theorem settled_failed (hbehind : FollowsBehind ts) (h : Residue p ts) (hc : climb own ts = none) :
    ∃ rest, grammar.settled "expr" own p = .failed rest ∧ Residue rest ts := by
  have hkeeps : ∀ d ∈ grammar.productions "expr" own, ∀ p, Residue p ts →
      ∃ rest, d.attempt grammar.settled p = .failed rest ∧ Residue rest ts := by
    intro d hd p h
    have h0 : own.admits 0 := by
      obtain ⟨-, a, -, ha, -⟩ := Grammar.mem_productions.mp hd
      exact Bound.admits_of_le (Nat.zero_le _) ha
    cases ts with
    | nil =>
      obtain rfl := h.eq_nil
      exact ⟨[], d.attempt_nil _, .nil⟩
    | cons s ts =>
      have hp : primary? (s :: ts) = none := climb_eq_none.mp hc h0
      obtain ⟨q, rfl⟩ := h.exists_token
      rcases cases_production hd with rfl | ⟨name, -, rfl⟩ | ⟨op, -, -, rfl⟩ | rfl | rfl | ⟨rfl, -⟩
      · exact ⟨_, attempt_itemProduction_of_not (primary?_eq_none hp).1, h⟩
      · exact ⟨_, rfl, h⟩
      · exact ⟨_, Operator.attempt_token, h⟩
      · exact ⟨_, rfl, h⟩
      · exact attempt_group_keeps hbehind hp h
      · exact ⟨_, rfl, h⟩
  obtain ⟨rest, hr, hrest⟩ := Production.attemptFirst_of_keeps hkeeps h
  refine ⟨rest, Grammar.settled_of_untaken hr ?_, hrest⟩
  cases hrest <;> rfl

/-- Runs on all residues do what climbing does. The induction is on the number of tokens. -/
theorem follows (own : Bound) (ts : List String) : Follows own ts := by
  have hbehind : FollowsBehind ts := fun ts' hlt own' => follows own' ts'
  refine ⟨fun {p c} h hc => ?_, fun h hc => settled_failed hbehind h hc⟩
  obtain ⟨h0, left, hp, rfl⟩ := climb_eq_some.mp hc
  obtain ⟨q, he, hq⟩ := settled_primary hbehind h0 h hp
  rw [he]
  exact settled_extend hbehind left h0 hq
termination_by ts.length

/-- An expression is parsed under a bound by precedence climbing, and so is what cannot be parsed. What is left
pending is a residue of the tokens that climbing leaves, and an operator without a right operand is a raw token
there. -/
theorem parse_expr_eq_climb (own : Bound) (ts : List String) {n : Nat}
    (hn : grammar.allowance (ts.map .token) ≤ n) :
    (grammar.parse n "expr" own (ts.map .token)).value? = (climb own ts).map Reading.tree ∧
      ∃ rest, (grammar.parse n "expr" own (ts.map .token)).rest? = some rest ∧
        Residue rest ((climb own ts).elim ts Reading.rest) ∧
        rest.head? = ((climb own ts).elim ts Reading.rest).head?.map .token := by
  have hrun := Grammar.parse_eq_settled (ranked.parse_ne_exhausted (by decide) hn "expr" own)
  rw [hrun]
  cases hc : climb own ts with
  | none =>
    obtain ⟨rest, hr, hrest⟩ := (follows own ts).failed (residue_tokens ts) hc
    rw [hr]
    exact ⟨rfl, rest, rfl, hrest, hrest.head?_eq⟩
  | some c =>
    obtain ⟨rest, hr, hrest⟩ := (follows own ts).matched (residue_tokens ts) hc
    rw [hr]
    exact ⟨rfl, rest, rfl, hrest, hrest.head?_eq⟩

theorem parse_unclosed_eq_climb :
    let ts := ["1", "-", "2", "*", "(", "(", "3", ")", "$"]
    let outcome := grammar.parse 99 "expr" .standard (ts.map .token)
    grammar.allowance (ts.map .token) ≤ 99 ∧ outcome.value?.map (fun t => t.toNode.render) = some "[1 - 2]" ∧
      ∃ rest, outcome.rest? = some rest ∧ rest.render = "* ( 3 $" ∧ Residue rest ["*", "(", "(", "3", ")", "$"] := by
  intro ts outcome
  have hn : grammar.allowance (ts.map .token) ≤ 99 := by decide
  have hclimb : (climb .standard ts).map (fun c => (c.tree.toNode.render, c.rest)) =
      some ("[1 - 2]", ["*", "(", "(", "3", ")", "$"]) := by cbv
  have hrender : outcome.rest?.map Pending.render = some "* ( 3 $" := by decide +kernel
  obtain ⟨c, hc, he⟩ := Option.map_eq_some_iff.mp hclimb
  obtain ⟨htree, hrest⟩ := Prod.mk.inj he
  obtain ⟨hvalue, rest, hr, hresidue, -⟩ := parse_expr_eq_climb .standard ts hn
  rw [hc] at hvalue hresidue
  refine ⟨hn, ?_, rest, hr, ?_, hrest ▸ hresidue⟩
  · rw [hvalue, Option.map_some, Option.map_some, htree]
  · rw [hr] at hrender
    exact Option.some.inj hrender

end LeftCorner.Arithmetic
