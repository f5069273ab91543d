import LeftCorner.Proofs.ArithmeticRules
import LeftCorner.Proofs.Settled
import Mathlib.Data.Finset.Card
import Mathlib.Logic.Relation

/-!
# Grammars without cycles of lone reductions

A rule is built from a lone tree of another if one of its variants has that rule leftmost and can match nothing behind
it. Such a reduction leaves as many items as there were. Where no rule is built from a lone tree of itself, by way of
any number of others, there are not many of them in a row: from a tree that was just built, fewer rules can be built
than from the tree it was built from. This ranks the rules, so that every parse comes to its end.
-/

namespace LeftCorner

theorem RuleTable.card_names_le (rules : RuleTable) : rules.names.toFinset.card ≤ rules.length := by
  have h := rules.names.toFinset_card_le
  rwa [RuleTable.names, List.length_map] at h

namespace Grammar

/-- Every alternative builds a tree over what it matched, or hands back the middle one of three nodes. -/
def BuildsOrUnwraps (g : Grammar) : Prop :=
  ∀ rule a, g.Offers rule a → a.build = Constructor.tree ∨ a.build = Constructor.middle

/-- A variant of an alternative of a rule can match a lone tree of a name. -/
def BuiltFromLone (g : Grammar) (rule name : RuleName) : Prop :=
  ∃ a, g.Offers rule a ∧ ∃ bound, ∃ v ∈ a.phrase.variants bound, v.1.Lone name

variable {g : Grammar} {rank : RuleName → Nat} {limit : Nat} {rule name : RuleName}

theorem Ranked.rank_lt_of_transGen (hg : g.Ranked rank limit) (h : Relation.TransGen g.BuiltFromLone rule name) :
    rank rule < rank name := by
  have hstep : ∀ {rule name}, g.BuiltFromLone rule name → rank rule < rank name := by
    intro rule name h
    obtain ⟨a, ha, bound, v, hv, hl⟩ := h
    exact hg.lone rule a name v bound ha hv hl
  induction h with
  | single h => exact hstep h
  | tail _ h ih => exact Nat.lt_trans ih (hstep h)

/-- Ranks rule out cycles. -/
theorem Ranked.not_transGen_self (hg : g.Ranked rank limit) (name : RuleName) :
    ¬ Relation.TransGen g.BuiltFromLone name name :=
  fun h => Nat.lt_irrefl _ (hg.rank_lt_of_transGen h)

open Classical in
/-- The rules that reductions of lone trees can build from a tree of a name. -/
noncomputable def loneOutcomes (g : Grammar) (name : RuleName) : Finset RuleName :=
  g.rules.names.toFinset.filter (Relation.TransGen g.BuiltFromLone · name)

theorem mem_loneOutcomes :
    rule ∈ g.loneOutcomes name ↔ rule ∈ g.rules.names ∧ Relation.TransGen g.BuiltFromLone rule name := by
  simp [loneOutcomes]

theorem loneOutcomes_subset (g : Grammar) (name : RuleName) : g.loneOutcomes name ⊆ g.rules.names.toFinset :=
  fun _ h => List.mem_toFinset.mpr (mem_loneOutcomes.mp h).1

/-- A rule that is not built from itself is one that its name does not lead to. -/
theorem card_loneOutcomes_lt_length {a : Alternative} (hl : ¬ Relation.TransGen g.BuiltFromLone rule rule)
    (ha : g.Offers rule a) : (g.loneOutcomes rule).card < g.rules.length := by
  have hself : rule ∉ g.loneOutcomes rule := fun h => hl (mem_loneOutcomes.mp h).2
  have hsub : g.loneOutcomes rule ⊂ g.rules.names.toFinset :=
    (Finset.ssubset_iff_of_subset (g.loneOutcomes_subset rule)).mpr
      ⟨rule, List.mem_toFinset.mpr ha.mem_names, hself⟩
  exact Nat.lt_of_lt_of_le (Finset.card_lt_card hsub) g.rules.card_names_le

/-- What can be built from a tree can be built from the one it was built from, and the rule of the tree besides. -/
theorem card_loneOutcomes_lt (hl : ¬ Relation.TransGen g.BuiltFromLone rule rule) (h : g.BuiltFromLone rule name) :
    (g.loneOutcomes rule).card < (g.loneOutcomes name).card := by
  have hn : rule ∈ g.rules.names := by
    obtain ⟨a, ha, -⟩ := h
    exact ha.mem_names
  have hsub : g.loneOutcomes rule ⊆ g.loneOutcomes name := by
    intro other ho
    obtain ⟨hm, ho⟩ := mem_loneOutcomes.mp ho
    exact mem_loneOutcomes.mpr ⟨hm, ho.tail h⟩
  have hself : rule ∉ g.loneOutcomes rule := fun h => hl (mem_loneOutcomes.mp h).2
  have hrule : rule ∈ g.loneOutcomes name := mem_loneOutcomes.mpr ⟨hn, .single h⟩
  exact Finset.card_lt_card ((Finset.ssubset_iff_of_subset hsub).mpr ⟨rule, hrule, hself⟩)

/-- Without cycles, names rank by how many rules can be built from a lone tree of theirs. -/
theorem ranked_of_acyclic (hb : g.BuildsOrUnwraps) (hl : ∀ name, ¬ Relation.TransGen g.BuiltFromLone name name) :
    g.Ranked (fun name => (g.loneOutcomes name).card) g.rules.length where
  rank_le name := Nat.le_trans (Finset.card_le_card (g.loneOutcomes_subset name)) g.rules.card_names_le
  rank_lt rule _ ha := card_loneOutcomes_lt_length (hl rule) ha
  lone rule a _ v bound ha hv h := card_loneOutcomes_lt (hl rule) ⟨a, ha, bound, v, hv, h⟩
  build := hb

/-- Where no rule is built from a lone tree of itself, every parse of every rule ends on all pending items and under
every bound. An allowance that is linear in the number of items suffices, and a larger one changes nothing. -/
theorem parse_terminates (hb : g.BuildsOrUnwraps) (hl : ∀ name, ¬ Relation.TransGen g.BuiltFromLone name name)
    (name : RuleName) (bound : Bound) (p : Pending) :
    ∃ outcome, outcome ≠ .exhausted ∧ ∀ n, g.allowance p ≤ n → g.parse n name bound p = outcome := by
  have hne (n : Nat) (hn : g.allowance p ≤ n) : g.parse n name bound p ≠ .exhausted :=
    (ranked_of_acyclic hb hl).parse_ne_exhausted (Nat.le_refl _) hn name bound
  refine ⟨g.settled name bound p, ?_, fun n hn => parse_eq_settled (hne n hn)⟩
  rw [← parse_eq_settled (hne _ (Nat.le_refl _))]
  exact hne _ (Nat.le_refl _)

end Grammar

/-- Of what stands alone only expressions are built. The items may be nodes from elsewhere. -/
theorem Arithmetic.parse_terminates_nodes :
    let p : Pending := [.token "(", .node (.tree "expr" 20 []), .token ")", .token "*", .node (.terminal "2")]
    grammar.BuildsOrUnwraps ∧ (∀ name, ¬ Relation.TransGen grammar.BuiltFromLone name name) ∧
      ∃ outcome, outcome ≠ .exhausted ∧ ∀ n, 51 ≤ n → grammar.parse n "block" .standard p = outcome := by
  intro p
  have hp : grammar.allowance p = 51 := rfl
  rw [← hp]
  exact ⟨ranked.build, ranked.not_transGen_self,
    Grammar.parse_terminates ranked.build ranked.not_transGen_self "block" .standard p⟩

end LeftCorner
