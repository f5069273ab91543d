import LeftCorner.Proofs.ArithmeticParsing

/-!
# What the grammar of arithmetic accepts

The tree of an expression stands for the tokens of a sum, and that of a block for these and the end marker. Every
reduction keeps what the nodes stand for, so a block that was parsed is a sum, whatever reductions led to it. Since
sums are parsed to their blocks and every parse comes to an end, blocks are parsed of sums only, each to the tree of
its one derivation, and of other tokens there is no parse.
-/

namespace LeftCorner.Arithmetic

/-- The tokens that a node stands for. -/
def StandsFor : Node → List String → Prop
  | .terminal s, w => w = [s]
  | .tree rule _ _, w =>
    if rule = "block" then ∃ d : Derivation .sum, w = d.tokens ++ [Pending.endMarker]
    else ∃ d : Derivation .sum, w = d.tokens

/-- The tokens that some nodes stand for, one after another. -/
def StandFor : List Node → List String → Prop
  | [], w => w = []
  | n :: ns, w => ∃ u v, w = u ++ v ∧ StandsFor n u ∧ StandFor ns v

variable {ns ms : List Node} {w : List String} {rule : RuleName} {level : Level} {children : List Node}

theorem standsFor_tree (h : rule ≠ "block") :
    StandsFor (.tree rule level children) w ↔ ∃ d : Derivation .sum, w = d.tokens := by
  rw [StandsFor, if_neg h]

theorem standsFor_block :
    StandsFor (.tree "block" level children) w ↔
      ∃ d : Derivation .sum, w = d.tokens ++ [Pending.endMarker] := by
  rw [StandsFor, if_pos rfl]

theorem standFor_singleton {n : Node} : StandFor [n] w ↔ StandsFor n w := by
  simp [StandFor]

theorem standFor_append :
    StandFor (ns ++ ms) w ↔ ∃ u v, w = u ++ v ∧ StandFor ns u ∧ StandFor ms v := by
  induction ns generalizing w with
  | nil => simp [StandFor]
  | cons n ns ih =>
    constructor
    · intro h
      obtain ⟨u, v, rfl, hn, h⟩ := h
      obtain ⟨v, v', rfl, hv, hm⟩ := ih.mp h
      exact ⟨u ++ v, v', (List.append_assoc u v v').symm, ⟨u, v, rfl, hn, hv⟩, hm⟩
    · intro h
      obtain ⟨_, v', rfl, ⟨u, v, rfl, hn, hv⟩, hm⟩ := h
      exact ⟨u, v ++ v', List.append_assoc u v v', hn, ih.mpr ⟨v, v', rfl, hv, hm⟩⟩

theorem standFor_terminals (w : List String) : StandFor (w.map .terminal) w := by
  induction w with
  | nil => rfl
  | cons s w ih => exact ⟨[s], w, rfl, rfl, ih⟩

theorem standsFor_build {a : Alternative} (ha : grammar.Offers rule a) (hc : a.Licenses children)
    (h : StandFor children w) : StandsFor (a.build rule a.level children) w := by
  have hne : "expr" ≠ "block" := by decide
  rcases cases_offers ha with hd | ⟨op, ho, hd⟩ | hd | hd | hd
  all_goals cases hd
  · obtain ⟨parts, hd, rfl, -⟩ := hc
    obtain ⟨s, hs, rfl⟩ := Phrase.derives_term.mp hd
    have hw : w = [s] := standFor_singleton.mp h
    exact (standsFor_tree (by decide)).mpr ⟨.toSum (.toProduct (.number ⟨s, hs⟩)), hw⟩
  · obtain ⟨l, cs, l', cs', rfl⟩ := eq_of_licenses_operation hc
    obtain ⟨u, v, rfl, hu, t, v, rfl, ht, hv⟩ := h
    obtain ⟨d, rfl⟩ := (standsFor_tree hne).mp hu
    obtain ⟨d', rfl⟩ := (standsFor_tree hne).mp (standFor_singleton.mp hv)
    obtain rfl : t = [op.token] := ht
    obtain ⟨e, he⟩ := Derivation.exists_operation ho (level_le_sum ho) d d'
    exact (standsFor_tree (rule_ne_of_operator ho).2).mpr ⟨e, he.symm⟩
  · obtain ⟨l, cs, rfl⟩ := eq_of_licenses_group hc
    obtain ⟨u, v, rfl, hu, t, v, rfl, ht, hv⟩ := h
    obtain rfl : u = ["("] := hu
    obtain ⟨d, rfl⟩ := (standsFor_tree hne).mp ht
    obtain rfl : v = [")"] := standFor_singleton.mp hv
    exact (standsFor_tree hne).mpr ⟨.toSum (.toProduct (.group d)), rfl⟩
  · obtain ⟨parts, hd, rfl, -⟩ := hc
    obtain ⟨e, he, hd⟩ := Phrase.derives_choice.mp hd
    obtain ⟨name, hn, rfl⟩ := List.mem_map.mp he
    obtain ⟨l, cs, rfl⟩ := Phrase.derives_rule.mp hd
    have hb : name ≠ "block" := ne_of_mem_of_not_mem hn (by decide)
    exact (standsFor_tree hne).mpr ((standsFor_tree hb).mp (standFor_singleton.mp h))
  · obtain ⟨parts, hd, rfl, -⟩ := hc
    obtain ⟨front, back, rfl, hinside, hmarker⟩ := Phrase.derives_pair.mp hd
    obtain ⟨l, cs, rfl⟩ := Phrase.derives_rule.mp hinside
    obtain rfl := Phrase.derives_literal.mp hmarker
    obtain ⟨u, v, rfl, hu, hv⟩ := h
    obtain ⟨d, rfl⟩ := (standsFor_tree hne).mp hu
    obtain rfl : v = [Pending.endMarker] := standFor_singleton.mp hv
    exact standsFor_block.mpr ⟨d, rfl⟩

theorem standFor_step (hs : grammar.Step ns ms) (h : StandFor ns w) : StandFor ms w := by
  obtain ⟨front, back, ha, hc⟩ := hs
  obtain ⟨u, v, rfl, hfront, hback⟩ := standFor_append.mp h
  obtain ⟨u, t, rfl, hfront, hchildren⟩ := standFor_append.mp hfront
  refine standFor_append.mpr ⟨u, t ++ v, List.append_assoc u t v, hfront, ?_⟩
  exact ⟨t, v, rfl, standsFor_build ha hc hchildren, hback⟩

/-- Tokens of which a block was parsed are those of a sum. -/
theorem exists_derivation {n : Nat} {own : Bound} {ts : List String} {t : Tree} {rest : Pending}
    (hts : Pending.endMarker ∉ ts)
    (h : grammar.parse n "block" own (.ofTokens ts Pending.endMarker) = .matched t rest) :
    ∃ d : Derivation .sum, d.tokens = ts := by
  have hsound := grammar.sound_parse n "block" own (.ofTokens ts Pending.endMarker)
  rw [h] at hsound
  obtain ⟨hrule, -, hr⟩ := hsound
  have hstart : StandFor (Pending.ofTokens ts Pending.endMarker).nodes (ts ++ [Pending.endMarker]) := by
    have hn : (Pending.ofTokens ts Pending.endMarker).nodes = (ts ++ [Pending.endMarker]).map .terminal := by
      simp [Pending.ofTokens, Pending.nodes, Function.comp_def]
    rw [hn]
    exact standFor_terminals _
  have hend : StandFor (t.toNode :: rest.nodes) (ts ++ [Pending.endMarker]) :=
    hr.keeps (P := fun ns => StandFor ns (ts ++ [Pending.endMarker])) (fun _ _ => standFor_step) hstart
  obtain ⟨u, v, huv, hu, -⟩ := hend
  rw [Tree.toNode, hrule] at hu
  obtain ⟨d, rfl⟩ := standsFor_block.mp hu
  refine ⟨d, ?_⟩
  rcases List.eq_nil_or_concat v with rfl | ⟨v, s, rfl⟩
  · rw [List.append_nil] at huv
    exact (List.append_cancel_right huv).symm
  · rw [List.concat_eq_append, ← List.append_assoc] at huv
    obtain ⟨rfl, -⟩ := List.append_inj' huv rfl
    exact absurd (by simp) hts

/-- What is parsed of the tokens of a sum is the block of its tree. -/
theorem Derivation.tree_eq_of_parse (d : Derivation .sum) {n : Nat} {t : Tree} {rest : Pending}
    (h : grammar.parse n "block" .standard (.ofTokens d.tokens Pending.endMarker) = .matched t rest) :
    t = blockTree d.image := by
  have hne : grammar.parse n "block" .standard (.ofTokens d.tokens Pending.endMarker) ≠ .exhausted := by simp [h]
  rw [Grammar.parse_eq_settled hne, d.settled_block] at h
  cases h
  rfl

theorem Derivation.parseAll_tokens (d : Derivation .sum) {n : Nat}
    (hn : grammar.allowance (.ofTokens d.tokens Pending.endMarker) ≤ n) :
    grammar.parseAll n "block" d.tokens = some (.ok (blockTree d.image)) := by
  have hne := ranked.parse_ne_exhausted (by decide : 2 ≤ grammar.rules.length) hn "block" .standard
  rw [Grammar.parseAll, Grammar.parse_eq_settled hne, d.settled_block]

/-- A block is parsed of the tokens of a sum and of no others, and to the tree of its one derivation. -/
theorem parseAll_block {ts : List String} (hts : Pending.endMarker ∉ ts) {n : Nat}
    (hn : grammar.allowance (.ofTokens ts Pending.endMarker) ≤ n) :
    ((∃ t, grammar.parseAll n "block" ts = some (.ok t)) ↔ ∃ d : Derivation .sum, d.tokens = ts) ∧
      (∀ d : Derivation .sum, d.tokens = ts →
        (∀ d' : Derivation .sum, d'.tokens = ts → d' = d) ∧
          grammar.parseAll n "block" ts = some (.ok (blockTree d.image))) ∧
      ((¬ ∃ d : Derivation .sum, d.tokens = ts) →
        ∃ rest, grammar.parseAll n "block" ts = some (.error ⟨"block", rest⟩)) := by
  have hne := ranked.parse_ne_exhausted (by decide : 2 ≤ grammar.rules.length) hn "block" .standard
  have hok : ∀ d : Derivation .sum, d.tokens = ts →
      grammar.parseAll n "block" ts = some (.ok (blockTree d.image)) := by
    rintro d rfl
    exact d.parseAll_tokens hn
  refine ⟨⟨?_, fun ⟨d, hd⟩ => ⟨_, hok d hd⟩⟩, fun d hd => ⟨fun d' hd' => ?_, hok d hd⟩, fun hno => ?_⟩
  · intro h
    obtain ⟨t, ht⟩ := h
    rw [Grammar.parseAll] at ht
    cases h : grammar.parse n "block" .standard (.ofTokens ts Pending.endMarker) with
    | matched t rest => exact exists_derivation hts h
    | failed rest =>
      rw [h] at ht
      cases ht
    | exhausted =>
      rw [h] at ht
      cases ht
  · exact Derivation.eq_of_tokens_eq (hd'.trans hd.symm)
  · cases h : grammar.parse n "block" .standard (.ofTokens ts Pending.endMarker) with
    | matched t rest => exact absurd (exists_derivation hts h) hno
    | failed rest => exact ⟨rest, by rw [Grammar.parseAll, h]⟩
    | exhausted => exact absurd h hne

theorem parseAll_block_group :
    let ts := ["2", "*", "(", "3", "+", "4", ")"]
    Pending.endMarker ∉ ts ∧ grammar.allowance (.ofTokens ts Pending.endMarker) ≤ 81 ∧
      grammar.parseAll 81 "block" ts = some (.ok (blockTree (exprTree (mul.tree (exprTree (itemTree "2"))
        (exprTree (add.tree (exprTree (itemTree "3")) (exprTree (itemTree "4")))))))) := by
  intro ts
  have hts : Pending.endMarker ∉ ts := by decide
  have hn : grammar.allowance (.ofTokens ts Pending.endMarker) ≤ 81 := by decide
  let number (s : String) (h : number.accepts s) : Derivation .product := .toProduct (.number ⟨s, h⟩)
  let three : Derivation .sum := .toSum (number "3" rfl)
  let inside : Derivation .sum := .operation add List.mem_cons_self three (number "4" rfl)
  let d : Derivation .sum := .toSum (.operation mul List.mem_cons_self (number "2" rfl) (.group inside))
  exact ⟨hts, hn, ((parseAll_block hts hn).2.1 d rfl).2⟩

end LeftCorner.Arithmetic
