import LeftCorner.Proofs.ArithmeticDerivation

/-!
# Arithmetic is parsed layer by layer

The tokens of an expression are reduced to its tree, whether an expression or a whole block is asked for, if the
bound in force admits the level of the expression's layer and no operator behind it binds more tightly. Operands
are parsed under the bound of their operator, what is in parentheses under the widest bound, and each of these
parses stops where the operand ends. A block is complete when the end marker comes next.
-/

namespace LeftCorner.Arithmetic

def groupProduction (own : Bound) : Production := ⟨"subexpr", 0, .middle, "(" + operand.upTo 100 + ")", own⟩

def blockProduction (own : Bound) : Production := ⟨"block", 0, .tree, operand + Pending.endMarker, own⟩

def blockTree (t : Tree) : Tree := ⟨"block", 0, [t.toNode, .terminal Pending.endMarker]⟩

variable {target : RuleName} {own : Bound} {call : RuleParser} {q : Pending} {t : Tree}

theorem cases_production {d : Production} (hd : d ∈ grammar.productions target own) :
    d = itemProduction own ∨ (∃ name, operators.Operand name ∧ d = exprProduction name own) ∨
      (∃ op ∈ operators.operators, own.admits op.level ∧ d = op.production own) ∨
      d = exprProduction "subexpr" own ∨ d = groupProduction own ∨
      (d = blockProduction own ∧ grammar.IsCorner target "block") := by
  obtain ⟨rule, level, build, e, b⟩ := d
  obtain ⟨hc, a, ha, hadmits, hd⟩ := Grammar.mem_productions.mp hd
  obtain ⟨v, hv, he⟩ := List.mem_map.mp hd
  rcases cases_offers ha with h | ⟨op, ho, h⟩ | h | h | h
  · cases h
    obtain rfl := List.mem_singleton.mp hv
    exact .inl he.symm
  · cases h
    obtain rfl := Operator.mem_variants_phrase.mp hv
    exact .inr (.inr (.inl ⟨op, ho, hadmits, he.symm⟩))
  · cases h
    obtain rfl := List.mem_singleton.mp hv
    exact .inr (.inr (.inr (.inr (.inl he.symm))))
  · cases h
    obtain ⟨name, hn, rfl⟩ := mem_variants_options.mp hv
    rcases mem_options.mp hn with rfl | hn
    · exact .inr (.inr (.inr (.inl he.symm)))
    · exact .inr (.inl ⟨name, hn, he.symm⟩)
  · cases h
    obtain rfl := List.mem_singleton.mp hv
    exact .inr (.inr (.inr (.inr (.inr ⟨he.symm, hc⟩))))

/-- Whether an expression is asked for or a block, the same rules can start it. -/
theorem isCorner {rule : RuleName} (ht : target = "expr" ∨ target = "block")
    (hr : rule ∈ "expr" :: options) : grammar.IsCorner target rule := by
  have hm : rule ∈ "expr" :: options.reverse := by simpa using hr
  rcases ht with rfl | rfl
  · have hc : grammar.corners? "expr" = some ("expr" :: options.reverse) := by rfl
    exact ⟨_, hc, hm⟩
  · have hc : grammar.corners? "block" = some ("block" :: "expr" :: options.reverse) := by rfl
    exact ⟨_, hc, List.mem_cons_of_mem _ hm⟩

theorem not_isCorner_block : ¬ grammar.IsCorner "expr" "block" := by
  have hc : grammar.corners? "expr" = some ("expr" :: options.reverse) := by rfl
  intro h
  obtain ⟨names, hn, hb⟩ := h
  rw [hc] at hn
  cases hn
  exact absurd hb (by decide)

/-- The productions besides those of the operators. -/
def others (own : Bound) : List Production := [exprProduction "subexpr" own, groupProduction own]

theorem readBy_of_only {ds : List Production} (ht : target = "expr" ∨ target = "block") (h0 : own.admits 0)
    (hall : ∀ d ∈ others own, d ∈ ds) (hblock : grammar.IsCorner target "block" → blockProduction own ∈ ds) :
    operators.ReadBy grammar target own ds := by
  refine ⟨?_, ?_, ?_, ?_⟩
  · exact Grammar.mem_productions_ofDefinitions (mem_definitions.mpr (.inl rfl)) (isCorner ht (by decide)) h0
      (List.mem_singleton.mpr rfl)
  · intro name hn
    exact Grammar.mem_productions_ofDefinitions (mem_definitions.mpr (.inr (.inr (.inr (.inl rfl)))))
      (isCorner ht List.mem_cons_self) h0 (mem_variants_options.mpr ⟨name, mem_options.mpr (.inr hn), rfl⟩)
  · intro op ho hop
    have hc : op.rule ∈ "expr" :: options := List.mem_cons_of_mem _ (mem_options.mpr (.inr (.inr ⟨op, ho, rfl⟩)))
    exact Grammar.mem_productions_ofDefinitions (mem_definitions.mpr (.inr (.inl ⟨op, ho, rfl⟩)))
      (isCorner ht hc) hop (Operator.mem_variants_phrase.mpr rfl)
  · intro d hd
    rcases cases_production hd with h | h | h | h | h | ⟨h, hc⟩
    · exact .inl h
    · exact .inr (.inl h)
    · exact .inr (.inr (.inl h))
    · exact .inr (.inr (.inr (hall d (by simp [others, h]))))
    · exact .inr (.inr (.inr (hall d (by simp [others, h]))))
    · exact .inr (.inr (.inr (h ▸ hblock hc)))

theorem readBy (ht : target = "expr" ∨ target = "block") (h0 : own.admits 0) :
    operators.ReadBy grammar target own (blockProduction own :: others own) :=
  readBy_of_only ht h0 (fun _ => List.mem_cons_of_mem _) fun _ => List.mem_cons_self

theorem readBy_expr (h0 : own.admits 0) : operators.ReadBy grammar "expr" own (others own) :=
  readBy_of_only (.inl rfl) h0 (fun _ hd => hd) fun hc => absurd hc not_isCorner_block

theorem others_idle_node {d : Production} (hd : d ∈ others own) (ht : t.rule ≠ "subexpr") :
    d.Idle (.node t.toNode :: q) := by
  intro call
  rcases List.mem_pair.mp hd with rfl | rfl
  · exact attempt_exprProduction_of_ne ht
  · rfl

theorem ne_open_of_number {s : String} (hs : number.accepts s) : s ≠ "(" := by
  rintro rfl
  exact absurd hs (by decide)

theorem groupProduction_idle {s : String} (hs : s ≠ "(") : (groupProduction own).Idle (.token s :: q) :=
  fun _ => Production.attempt_of_corner?_eq_none (Phrase.corner?_literal_token.trans (if_neg hs.symm))

theorem others_idle_number {d : Production} {s : String} (hd : d ∈ others own) (hs : number.accepts s) :
    d.Idle (.token s :: q) := by
  rcases List.mem_pair.mp hd with rfl | rfl
  · exact fun _ => rfl
  · exact groupProduction_idle (ne_open_of_number hs)

theorem attempt_blockProduction (ht : t.rule = "expr") :
    (blockProduction own).attempt call (.node t.toNode :: .token Pending.endMarker :: q) =
      .matched (blockTree t).toNode q := by
  have hr : Phrase.parseEach call [.literal Pending.endMarker] own (.token Pending.endMarker :: q) =
      .matched [.terminal Pending.endMarker] q := by
    simp [Phrase.parseEach, Phrase.parse_literal, Attempt.followedBy]
  exact Production.attempt_of_matched (Phrase.corner?_rule_toNode.trans (if_pos ht))
    (Phrase.complete_sequence_of_matched rfl hr)

theorem blockProduction_idle (h : t.rule = "expr" → ∀ q', q ≠ .token Pending.endMarker :: q') :
    (blockProduction own).Idle (.node t.toNode :: q) := by
  intro call
  by_cases ht : t.rule = "expr"
  · have hr : Phrase.parseEach call [.literal Pending.endMarker] own q = .failed q := by
      rw [Phrase.parseEach, Phrase.parse_literal_of_ne (h ht)]
      rfl
    have hc : (blockProduction own).phrase.complete call (.node t.toNode) own q = .failed (.node t.toNode :: q) :=
      Phrase.complete_sequence_of_failed (n := t.toNode) rfl hr
    exact Production.attempt_of_failed (Phrase.corner?_rule_toNode.trans (if_pos ht)) hc
  · exact Production.attempt_of_corner?_eq_none (Phrase.corner?_rule_toNode.trans (if_neg ht))

theorem attempt_groupProduction {p : Pending} (h : call "expr" (.atMost 100) p = .matched t (.token ")" :: q)) :
    (groupProduction own).attempt call (.token "(" :: p) = .matched t.toNode q := by
  have hr : Phrase.parseEach call [.bounded operand (.atMost 100), .literal ")"] own p =
      .matched [t.toNode, .terminal ")"] q := by
    simp [Phrase.parseEach, Phrase.parse, operand, h, Phrase.parse_literal, Attempt.followedBy]
  have hc : (groupProduction own).phrase.complete call (.token "(") own p =
      .matched [.terminal "(", t.toNode, .terminal ")"] q := Phrase.complete_sequence_of_matched rfl hr
  exact Production.attempt_of_matched (Phrase.corner?_literal_token.trans (if_pos rfl)) hc

theorem attempt_groupProduction_of_parts_failed {p rest : Pending}
    (h : Phrase.parseEach call [.bounded operand (.atMost 100), .literal ")"] own p = .failed rest) :
    (groupProduction own).attempt call (.token "(" :: p) = .failed (.token "(" :: rest) := by
  have hc : (groupProduction own).phrase.complete call (.token "(") own p = .failed (.token "(" :: rest) :=
    Phrase.complete_sequence_of_failed (n := .terminal "(") rfl h
  exact Production.attempt_of_failed (Phrase.corner?_literal_token.trans (if_pos rfl)) hc

theorem attempt_groupProduction_of_failed {p rest : Pending} (h : call "expr" (.atMost 100) p = .failed rest) :
    (groupProduction own).attempt call (.token "(" :: p) = .failed (.token "(" :: rest) :=
  attempt_groupProduction_of_parts_failed (by simp [Phrase.parseEach, Phrase.parse, operand, h])

/-- Where the closing parenthesis is missing, the tree stays behind the opening one. -/
theorem attempt_groupProduction_unclosed {p : Pending} (h : call "expr" (.atMost 100) p = .matched t q)
    (hq : ∀ q', q ≠ .token ")" :: q') :
    (groupProduction own).attempt call (.token "(" :: p) = .failed (.token "(" :: .node t.toNode :: q) := by
  apply attempt_groupProduction_of_parts_failed
  have hclose : Phrase.parse call (.literal ")") own q = .failed q := Phrase.parse_literal_of_ne hq
  simp [Phrase.parseEach, Phrase.parse, operand, h, hclose, Attempt.followedBy, Pending.restore, Tree.toNode,
    Item.ofMatched]

theorem idle_number {d : Production} {s : String} (hd : d ∈ blockProduction own :: others own)
    (hs : number.accepts s) : d.Idle (.token s :: q) := by
  rcases List.mem_cons.mp hd with rfl | hd
  · exact fun _ => rfl
  · exact others_idle_number hd hs

theorem idle_node {d : Production} (hd : d ∈ blockProduction own :: others own) (ht : t.rule ≠ "subexpr")
    (h : t.rule = "expr" → ∀ q', q ≠ .token Pending.endMarker :: q') : d.Idle (.node t.toNode :: q) := by
  rcases List.mem_cons.mp hd with rfl | hd
  · exact blockProduction_idle h
  · exact others_idle_node hd ht

/-- What stands in parentheses takes the place of the group. -/
theorem settled_group {p : Pending} (ht : target = "expr" ∨ target = "block") (h0 : own.admits 0)
    (h : grammar.settled "expr" (.atMost 100) p = .matched t (.token ")" :: q)) :
    grammar.settled target own (.token "(" :: p) = grammar.settled target own (.node t.toNode :: q) := by
  have hg : groupProduction own ∈ grammar.productions target own :=
    Grammar.mem_productions_ofDefinitions (mem_definitions.mpr (.inr (.inr (.inl rfl)))) (isCorner ht (by decide)) h0
      (List.mem_singleton.mpr rfl)
  have hm : (groupProduction own).attempt grammar.settled (.token "(" :: p) = .matched t.toNode q :=
    attempt_groupProduction h
  apply Grammar.settled_of_production hg hm
  intro d hd
  rcases cases_production hd with rfl | ⟨name, -, rfl⟩ | ⟨op, -, -, rfl⟩ | rfl | rfl | ⟨rfl, -⟩
  · exact .inl rfl
  · exact .inl rfl
  · exact .inl Operator.attempt_token
  · exact .inl rfl
  · exact .inr hm
  · exact .inl rfl

/-- No operator at the front binds more tightly than a layer. -/
def Layer.Stops (layer : Layer) (q : Pending) : Prop :=
  ∀ op ∈ Arithmetic.operators.operators, ∀ q', q = .token op.token :: q' → layer.level ≤ op.level

theorem Layer.stops_operator {layer : Layer} {op : Operator} (ho : op ∈ layer.operators) :
    layer.Stops (.token op.token :: q) := by
  intro op' ho' q' hq
  obtain ⟨hm, hl⟩ := Layer.mem_of_mem_operators ho
  rw [← Arithmetic.operators.eq_of_token hm ho' (Item.token.inj (List.cons.inj hq).1), hl]

/-- A tree of an expression is taken where no operator comes next that the bound admits. -/
theorem settled_expr (h0 : own.admits 0) (ht : t.rule = "expr") (hlevel : t.level = 0)
    (hq : ∀ op ∈ operators.operators, ∀ q', q = .token op.token :: q' → ¬ own.admits op.level) :
    grammar.settled "expr" own (.node t.toNode :: q) = .matched t q := by
  apply (readBy_expr h0).settled_stuck ht (hlevel ▸ h0) hq
  intro d hd
  apply others_idle_node hd
  rw [ht]
  decide

/-- The induction is on the derivation. The left operand of an operation is reduced in place, and the right one is
parsed under the bound of the operator. -/
theorem Derivation.settled_tokens {layer : Layer} (d : Derivation layer)
    (ht : target = "expr" ∨ target = "block") (hown : own.admits layer.level) (hq : layer.Stops q) :
    grammar.settled target own (d.tokens.map .token ++ q) =
      grammar.settled target own (.node d.image.toNode :: q) := by
  induction d generalizing target own q with
  | number n =>
    have hitem : (itemTree n).rule = "item" := rfl
    refine (readBy ht hown).settled_number n.2 (fun d hd => idle_number hd n.2) fun d hd => ?_
    refine idle_node hd ?_ fun h => ?_
    · rw [hitem]
      decide
    · rw [hitem] at h
      exact absurd h (by decide)
  | group e ih =>
    have hclose : ∀ op ∈ operators.operators, ∀ q', Item.token ")" :: q ≠ .token op.token :: q' :=
      fun op ho q' h => not_operator_close ho (Item.token.inj (List.cons.inj h).1).symm
    have htaken : grammar.settled "expr" (.atMost 100) (.node e.image.toNode :: .token ")" :: q) =
        .matched e.image (.token ")" :: q) :=
      settled_expr rfl e.rule_image e.level_image fun op ho q' h => absurd h (hclose op ho q')
    have hinside : grammar.settled "expr" (.atMost 100) (e.tokens.map .token ++ .token ")" :: q) =
        .matched e.image (.token ")" :: q) :=
      (ih (.inl rfl) (by decide) fun op ho q' h => absurd h (hclose op ho q')).trans htaken
    have happend : (group e).tokens.map Item.token ++ q =
        .token "(" :: (e.tokens.map .token ++ .token ")" :: q) := by
      simp [tokens]
    rw [happend]
    exact settled_group ht hown hinside
  | lone h d ih =>
    have hle := Layer.tighter_le
    exact ih ht (Bound.admits_of_le (hle _) hown) fun op ho q' h => Nat.le_trans (hle _) (hq op ho q' h)
  | @operation layer op ho l r ihl ihr =>
    obtain ⟨hm, hl⟩ := Layer.mem_of_mem_operators ho
    have hright := right_eq_below hm
    have hlt : layer.tighter.level < op.level := hl ▸ Layer.tighter_lt (Layer.ne_factor ho)
    have hadmits : op.right.admits layer.tighter.level := by
      rw [hright]
      exact Bound.admits_below.mpr hlt
    have hstops : layer.tighter.Stops q := fun op ho q' h => Nat.le_trans layer.tighter_le (hq op ho q' h)
    have hend : ∀ op' ∈ operators.operators, ∀ q', q = .token op'.token :: q' → ¬ op.right.admits op'.level := by
      intro op' ho' q' h ha
      rw [hright, Bound.admits_below, hl] at ha
      exact Nat.not_lt_of_le (hq op' ho' q' h) ha
    have htaken : grammar.settled "expr" op.right (.node r.image.toNode :: q) = .matched r.image q :=
      settled_expr (Bound.admits_of_le (Nat.zero_le _) hadmits) r.rule_image r.level_image hend
    have hoperand : grammar.settled "expr" op.right (r.tokens.map .token ++ q) = .matched r.image q :=
      (ihr (.inl rfl) hadmits hstops).trans htaken
    have hread := readBy ht (Bound.admits_of_le (Nat.zero_le _) hown)
    calc grammar.settled target own ((operation op ho l r).tokens.map .token ++ q)
        = grammar.settled target own (l.tokens.map .token ++ .token op.token :: (r.tokens.map .token ++ q)) := by
          simp [tokens]
      _ = grammar.settled target own (.node l.image.toNode :: .token op.token :: (r.tokens.map .token ++ q)) :=
          ihl ht hown (Layer.stops_operator ho)
      _ = grammar.settled target own (.node (operation op ho l r).image.toNode :: q) := by
          refine hread.settled_operation hm (hl ▸ hown) l.rule_image hoperand ?_ ?_
          · intro d hd
            refine idle_node hd (by rw [l.rule_image]; decide) fun _ q' h => ?_
            exact op.token_ne_endMarker (Item.token.inj (List.cons.inj h).1)
          · intro d hd
            exact idle_node hd (rule_ne_of_operator hm).1 fun h => absurd h op.rule_ne_expr

/-- A block is complete when the end marker comes next, and then nothing is left to reduce. -/
theorem settled_block (ht : t.rule = "expr") :
    grammar.settled "block" .standard (.node t.toNode :: .token Pending.endMarker :: q) =
      .matched (blockTree t) q := by
  have h0 : Bound.standard.admits 0 := rfl
  have hb : blockProduction .standard ∈ grammar.productions "block" .standard := by
    have hd := mem_definitions.mpr (.inr (.inr (.inr (.inr rfl))))
    exact Grammar.mem_productions_ofDefinitions hd (Grammar.isCorner_ofDefinitions hd (.inl rfl)) h0
      (List.mem_singleton.mpr rfl)
  have hm : (blockProduction .standard).attempt grammar.settled
      (.node t.toNode :: .token Pending.endMarker :: q) = .matched (blockTree t).toNode q :=
    attempt_blockProduction ht
  have hreduce : grammar.settled "block" .standard (.node t.toNode :: .token Pending.endMarker :: q) =
      grammar.settled "block" .standard (.node (blockTree t).toNode :: q) := by
    apply Grammar.settled_of_production hb hm
    intro d hd
    rcases cases_production hd with rfl | ⟨name, hn, rfl⟩ | ⟨op, ho, -, rfl⟩ | rfl | rfl | ⟨rfl, -⟩
    · exact .inl rfl
    · exact .inl (attempt_exprProduction_of_ne (ht ▸ hn.ne_expr.symm))
    · refine .inl (Operator.attempt_idle fun q' h => ?_)
      exact op.token_ne_endMarker (Item.token.inj (List.cons.inj h).1).symm
    · exact .inl (attempt_exprProduction_of_ne (ht ▸ by decide))
    · exact .inl rfl
    · exact .inr hm
  have hstuck : ∀ d ∈ grammar.productions "block" .standard,
      d.attempt grammar.settled (.node (blockTree t).toNode :: q) = .failed (.node (blockTree t).toNode :: q) := by
    intro d hd
    have hblock : (blockTree t).rule = "block" := rfl
    rcases cases_production hd with rfl | ⟨name, hn, rfl⟩ | ⟨op, ho, -, rfl⟩ | rfl | rfl | ⟨rfl, -⟩
    · rfl
    · apply attempt_exprProduction_of_ne
      rcases hn with rfl | ⟨op, ho, rfl⟩
      · exact ne_of_eq_of_ne hblock (by decide)
      · exact ne_of_eq_of_ne hblock (rule_ne_of_operator ho).2.symm
    · exact Operator.attempt_other (ne_of_eq_of_ne hblock (by decide))
    · exact attempt_exprProduction_of_ne (ne_of_eq_of_ne hblock (by decide))
    · rfl
    · refine blockProduction_idle (fun h => ?_) _
      exact absurd (hblock.symm.trans h) (by decide)
  exact hreduce.trans (Grammar.settled_of_no_production hstuck rfl h0)

/-- A sum with the end marker behind it is parsed to the block of its tree. -/
theorem Derivation.settled_block (d : Derivation .sum) :
    grammar.settled "block" .standard (.ofTokens d.tokens Pending.endMarker) = .matched (blockTree d.image) [] := by
  have hstops : Layer.Stops .sum [.token Pending.endMarker] := fun op _ q' h =>
    absurd (Item.token.inj (List.cons.inj h).1).symm op.token_ne_endMarker
  have hread := d.settled_tokens (.inr rfl) (by decide : Bound.standard.admits Layer.sum.level) hstops
  rw [Pending.ofTokens, List.map_append]
  exact hread.trans (Arithmetic.settled_block d.rule_image)

end LeftCorner.Arithmetic
