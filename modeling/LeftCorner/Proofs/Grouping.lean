import LeftCorner.Proofs.ArithmeticRules

/-!
# How operators group

Numbers with operators between them can be grouped in many ways, and a grouping is an expression over the table.
It is *well grouped* if each operator's right bound admits the levels along the left spine of its right operand, and
no right bound along the right spine of its left operand admits its own level.

Numbers and operators have exactly one good grouping: it is found by pushing them one by one onto the right spine,
and the grammar of the table parses them to its tree.
-/

namespace LeftCorner

abbrev OperatorTable.Entry (table : OperatorTable) := { op : Operator // op ∈ table.operators }

/-- Numbers and operators, grouped. -/
inductive Expression (table : OperatorTable) where
  | number (n : Arithmetic.Number)
  | binary (op : table.Entry) (left right : Expression table)

namespace Expression

variable {table : OperatorTable}

def tokens : Expression table → List String
  | number n => [n]
  | binary op l r => l.tokens ++ op.1.token :: r.tokens

def toTree : Expression table → Tree
  | number n => Arithmetic.exprTree (Arithmetic.itemTree n)
  | binary op l r => Arithmetic.exprTree (op.1.tree l.toTree r.toTree)

/-- The operators met on the way from the top to the first number. -/
def leftSpine : Expression table → List Operator
  | number _ => []
  | binary op l _ => op :: l.leftSpine

/-- The operators met on the way from the top to the last number. -/
def rightSpine : Expression table → List Operator
  | number _ => []
  | binary op _ r => op :: r.rightSpine

/-- Every operator admits what starts its right operand, and nothing that ends its left operand admits it. -/
inductive WellGrouped : Expression table → Prop where
  | number (n) : WellGrouped (number n)
  | binary {op l r} (hl : WellGrouped l) (hr : WellGrouped r)
      (hleft : ∀ o ∈ l.rightSpine, ¬ o.right.admits op.1.level)
      (hright : ∀ o ∈ r.leftSpine, op.1.right.admits o.level) : WellGrouped (binary op l r)

theorem leaves_toTree (e : Expression table) : e.toTree.leaves = e.tokens := by
  induction e with
  | number n => rfl
  | binary op l r ihl ihr =>
    rw [toTree, tokens, Arithmetic.leaves_exprTree, Operator.leaves_tree, ihl, ihr]

theorem rule_toTree (e : Expression table) : e.toTree.rule = "expr" := by cases e <;> rfl

theorem level_toTree (e : Expression table) : e.toTree.level = 0 := by cases e <;> rfl

theorem eq_of_toTree_eq {e f : Expression table} (h : e.toTree = f.toTree) : e = f := by
  induction e generalizing f with
  | number n =>
    cases f with
    | number m =>
      have hn : n.1 = m.1 := Arithmetic.itemTree_inj.mp (Arithmetic.exprTree_inj.mp h)
      rw [Subtype.ext hn]
    | binary op l r =>
      have hr := congrArg Tree.rule (Arithmetic.exprTree_inj.mp h)
      exact absurd hr.symm op.1.rule_ne_item
  | binary op l r ihl ihr =>
    cases f with
    | number m =>
      have hr := congrArg Tree.rule (Arithmetic.exprTree_inj.mp h)
      exact absurd hr op.1.rule_ne_item
    | binary op' l' r' =>
      obtain ⟨ht, hl, hr⟩ := Operator.token_eq_of_tree_eq (Arithmetic.exprTree_inj.mp h)
      rw [Subtype.ext (table.eq_of_token op.2 op'.2 ht), ihl hl, ihr hr]

/-- Where a bound admits all that starts a good grouping and rejects a level, all that ends it rejects the level. -/
theorem WellGrouped.rejects {e : Expression table} (h : e.WellGrouped) {b : Bound} {m : Level}
    (hb : ∀ o ∈ e.leftSpine, b.admits o.level) (hm : ¬ b.admits m) : ∀ o ∈ e.rightSpine, ¬ o.right.admits m := by
  induction h generalizing b with
  | number n => nofun
  | @binary op l r hl hr hleft hright _ ihr =>
    have hlt : op.1.level < m := Bound.lt_of_admits (hb op List.mem_cons_self) hm
    have hop : ¬ op.1.right.admits m := fun ha => Nat.not_le_of_lt hlt (Bound.le_of_admits ha)
    intro o ho
    rcases List.mem_cons.mp ho with rfl | ho
    · exact hop
    · exact ihr hright hop o ho

/-- Puts an operator and a number behind an expression, as far down its right spine as bounds admit. -/
def push (op : table.Entry) (n : Arithmetic.Number) : Expression table → Expression table
  | number m => binary op (number m) (number n)
  | binary o l r =>
    if o.1.right.admits op.1.level then binary o l (r.push op n) else binary op (binary o l r) (number n)

theorem tokens_push (op : table.Entry) (n : Arithmetic.Number) (e : Expression table) :
    (e.push op n).tokens = e.tokens ++ [op.1.token, n.1] := by
  induction e with
  | number m => rfl
  | binary o l r _ ihr =>
    rw [push]
    split
    · simp [tokens, ihr]
    · simp [tokens]

theorem mem_leftSpine_push {op : table.Entry} {n : Arithmetic.Number} {e : Expression table} {o : Operator}
    (h : o ∈ (e.push op n).leftSpine) : o = op.1 ∨ o ∈ e.leftSpine := by
  cases e with
  | number m => exact List.mem_cons.mp h
  | binary o' l r =>
    rw [push] at h
    split at h
    · exact .inr h
    · exact List.mem_cons.mp h

theorem WellGrouped.push {op : table.Entry} {n : Arithmetic.Number} {e : Expression table} (h : e.WellGrouped) :
    (e.push op n).WellGrouped := by
  induction h with
  | number m => exact .binary (.number m) (.number n) nofun nofun
  | @binary o l r hl hr hleft hright _ ihr =>
    rw [Expression.push]
    split
    next ha =>
      apply WellGrouped.binary hl ihr hleft
      intro o' ho'
      rcases mem_leftSpine_push ho' with rfl | ho'
      · exact ha
      · exact hright o' ho'
    next ha =>
      refine .binary (.binary hl hr hleft hright) (.number n) (fun o' ho' => ?_) nofun
      rcases List.mem_cons.mp ho' with rfl | ho'
      · exact ha
      · exact hr.rejects hright ha o' ho'

/-- The good grouping of a number and of the operators and numbers behind it. -/
def ofPairs (first : Arithmetic.Number) (rest : List (table.Entry × Arithmetic.Number)) : Expression table :=
  rest.foldl (fun e pair => e.push pair.1 pair.2) (number first)

theorem tokens_ofPairs (first : Arithmetic.Number) (rest : List (table.Entry × Arithmetic.Number)) :
    (ofPairs first rest).tokens = first.1 :: rest.flatMap fun pair => [pair.1.1.token, pair.2.1] := by
  suffices h : ∀ e : Expression table, (rest.foldl (fun e pair => e.push pair.1 pair.2) e).tokens =
      e.tokens ++ rest.flatMap fun pair => [pair.1.1.token, pair.2.1] from h (number first)
  induction rest with
  | nil => simp
  | cons pair rest ih =>
    intro e
    rw [List.foldl_cons, ih, tokens_push, List.flatMap_cons, List.append_assoc]

theorem wellGrouped_ofPairs (first : Arithmetic.Number) (rest : List (table.Entry × Arithmetic.Number)) :
    (ofPairs first rest).WellGrouped := by
  suffices h : ∀ e : Expression table, e.WellGrouped →
      (rest.foldl (fun e pair => e.push pair.1 pair.2) e).WellGrouped from h _ (.number first)
  induction rest with
  | nil => exact fun _ he => he
  | cons pair rest ih => exact fun e he => ih _ he.push

/-- No operator that ends an expression admits the one whose token is at the front. -/
def Ends (e : Expression table) (q : Pending) : Prop :=
  ∀ o ∈ e.rightSpine, ∀ op ∈ table.operators, ∀ q', q = .token op.token :: q' → ¬ o.right.admits op.level

/-- A good grouping is reduced to its tree, if the bound in force admits what starts it and nothing behind it
belongs to what ends it. The right operand of an operation is parsed under the operator's bound. It stops there:
the bound is one of those that end the whole. -/
theorem WellGrouped.settled {g : Grammar} (hg : ∀ own : Bound, own.admits 0 → table.ReadBy g "expr" own [])
    {e : Expression table} (h : e.WellGrouped) {own : Bound} {q : Pending} (h0 : own.admits 0)
    (hown : ∀ o ∈ e.leftSpine, own.admits o.level) (hq : e.Ends q) :
    g.settled "expr" own (e.tokens.map .token ++ q) = g.settled "expr" own (.node e.toTree.toNode :: q) := by
  induction h generalizing own q with
  | number n => exact (hg own h0).settled_number n.2 nofun nofun
  | @binary op l r hl hr hleft hright ihl ihr =>
    have hzero : op.1.right.admits 0 := Bound.admits_of_lt op.1.limit_pos
    have hends : l.Ends (.token op.1.token :: (r.tokens.map .token ++ q)) := by
      intro o ho op' hop' q' he
      have ht : op.1.token = op'.token := Item.token.inj (List.cons.inj he).1
      rw [← table.eq_of_token op.2 hop' ht]
      exact hleft o ho
    have hstuck : g.settled "expr" op.1.right (.node r.toTree.toNode :: q) = .matched r.toTree q := by
      refine (hg _ hzero).settled_stuck r.rule_toTree (r.level_toTree ▸ hzero) ?_ nofun
      exact hq op List.mem_cons_self
    have hoperand : g.settled "expr" op.1.right (r.tokens.map .token ++ q) = .matched r.toTree q :=
      (ihr hzero hright fun o ho => hq o (List.mem_cons_of_mem _ ho)).trans hstuck
    calc g.settled "expr" own ((Expression.binary op l r).tokens.map .token ++ q)
        = g.settled "expr" own (l.tokens.map .token ++ (.token op.1.token :: (r.tokens.map .token ++ q))) := by
          simp [tokens]
      _ = g.settled "expr" own (.node l.toTree.toNode :: .token op.1.token :: (r.tokens.map .token ++ q)) :=
          ihl h0 (fun o ho => hown o (List.mem_cons_of_mem _ ho)) hends
      _ = g.settled "expr" own (.node (Expression.binary op l r).toTree.toNode :: q) :=
          (hg own h0).settled_operation op.2 (hown op List.mem_cons_self) l.rule_toTree hoperand nofun nofun

theorem WellGrouped.settled_matched {g : Grammar}
    (hg : ∀ own : Bound, own.admits 0 → table.ReadBy g "expr" own []) {e : Expression table} (h : e.WellGrouped) :
    g.settled "expr" .standard (.ofTokens e.tokens Pending.endMarker) =
      .matched e.toTree [.token Pending.endMarker] := by
  have h0 : Bound.standard.admits 0 := rfl
  have hend : ∀ op ∈ table.operators, ∀ q', [Item.token Pending.endMarker] ≠ .token op.token :: q' :=
    fun op _ q' he => op.token_ne_endMarker (Item.token.inj (List.cons.inj he).1).symm
  have hown : ∀ o ∈ e.leftSpine, Bound.standard.admits o.level :=
    fun o _ => Bound.admits_atMost.mpr o.limit_le
  have hread := h.settled hg h0 hown fun o _ op hop q' he => (hend op hop q' he).elim
  have hstuck := (hg _ h0).settled_stuck e.rule_toTree (e.level_toTree ▸ h0)
    (fun op hop q' he => (hend op hop q' he).elim) nofun
  rw [Pending.ofTokens, List.map_append]
  exact hread.trans hstuck

/-- Of operators at one level, those with a bound below it group to the left, and those at most to the right. -/
theorem WellGrouped.associates {op : table.Entry} {l r : Expression table}
    (h : (Expression.binary op l r).WellGrouped) :
    (op.1.right = .below op.1.level → ∀ o ∈ r.leftSpine, o.level ≠ op.1.level) ∧
      ∀ o ∈ l.rightSpine, o.right = .atMost o.level → o.level ≠ op.1.level := by
  cases h with
  | binary hl hr hleft hright =>
    constructor
    · intro hb o ho
      have ha := hright o ho
      rw [hb, Bound.admits_below] at ha
      exact Nat.ne_of_lt ha
    · intro o ho hb he
      have ha := hleft o ho
      rw [hb, Bound.admits_atMost] at ha
      exact ha (Nat.le_of_eq he.symm)

end Expression

namespace OperatorTable

/-- Numbers with operators between them are parsed to their one good grouping. -/
theorem parse_grouped (table : OperatorTable) {ds : List Definition} (hds : ds.Perm table.definitions)
    (name : String) (first : Arithmetic.Number) (rest : List (table.Entry × Arithmetic.Number)) {n : Nat}
    (hn : (Grammar.ofDefinitions name ds).allowance
      (.ofTokens (first.1 :: rest.flatMap fun pair => [pair.1.1.token, pair.2.1]) Pending.endMarker) ≤ n) :
    ∃ e : Expression table, e.WellGrouped ∧
      (Grammar.ofDefinitions name ds).parse n "expr" .standard
        (.ofTokens (first.1 :: rest.flatMap fun pair => [pair.1.1.token, pair.2.1]) Pending.endMarker) =
          .matched e.toTree [.token Pending.endMarker] ∧
      e.toTree.leaves = first.1 :: (rest.flatMap fun pair => [pair.1.1.token, pair.2.1]) ∧
      (∀ e' : Expression table, e'.WellGrouped → e'.toTree.leaves = e.toTree.leaves → e' = e) ∧
      ∀ op l r, (Expression.binary op l r : Expression table).WellGrouped →
        (op.1.right = .below op.1.level → ∀ o ∈ r.leftSpine, o.level ≠ op.1.level) ∧
          ∀ o ∈ l.rightSpine, o.right = .atMost o.level → o.level ≠ op.1.level := by
  have hg : ∀ own : Bound, own.admits 0 → table.ReadBy (.ofDefinitions name ds) "expr" own [] :=
    fun own h => readBy hds name h
  have ht := Expression.tokens_ofPairs first rest
  have hw := Expression.wellGrouped_ofPairs first rest
  have hp := Grammar.parse_eq_settled ((ranked hds name).parse_ne_exhausted (two_le_length hds name) hn "expr" .standard)
  refine ⟨.ofPairs first rest, hw, ?_, (Expression.leaves_toTree _).trans ht, ?_, fun op l r h => h.associates⟩
  · rw [hp, ← ht, hw.settled_matched hg]
  · intro e' hw' he
    rw [Expression.leaves_toTree, Expression.leaves_toTree] at he
    have hs := hw'.settled_matched hg
    rw [he, hw.settled_matched hg] at hs
    exact (Expression.eq_of_toTree_eq (Attempt.matched.inj hs).1).symm

/-- Powers, which group to the right. -/
def power : Operator where
  rule := "pow"
  token := "^"
  left? := none
  right := .atMost 5

/-- Differences of powers. -/
def powers : OperatorTable := ⟨[Arithmetic.sub, power], by decide⟩

theorem powers_parse_grouped :
    let grammar := Grammar.ofDefinitions "powers" powers.definitions.reverse
    let p := Pending.ofTokens ["1", "-", "2", "^", "3", "^", "4", "-", "5"] Pending.endMarker
    powers.definitions.reverse.Perm powers.definitions ∧ grammar.allowance p ≤ 99 ∧
      ∃ e : Expression powers, e.WellGrouped ∧
        grammar.parse 99 "expr" .standard p = .matched e.toTree [.token Pending.endMarker] ∧
        e.toTree.toNode.render = "[[1 - [2 ^ [3 ^ 4]]] - 5]" := by
  intro grammar p
  have hds := powers.definitions.reverse_perm
  have hn : grammar.allowance p ≤ 99 := by decide
  let d : powers.Entry := ⟨Arithmetic.sub, by simp [powers]⟩
  let e : powers.Entry := ⟨power, by simp [powers]⟩
  let number (s : String) (h : Arithmetic.number.accepts s) : Arithmetic.Number := ⟨s, h⟩
  obtain ⟨f, hw, hf, -⟩ := parse_grouped powers hds "powers" (number "1" rfl)
    [(d, number "2" rfl), (e, number "3" rfl), (e, number "4" rfl), (d, number "5" rfl)] hn
  refine ⟨hds, hn, f, hw, hf, ?_⟩
  have hr : (grammar.parse 99 "expr" .standard p).value?.map (fun t => t.toNode.render) =
      some "[[1 - [2 ^ [3 ^ 4]]] - 5]" := by rfl
  have hp : grammar.parse 99 "expr" .standard p = .matched f.toTree [.token Pending.endMarker] := hf
  rw [hp] at hr
  exact Option.some.inj hr

end OperatorTable

end LeftCorner
