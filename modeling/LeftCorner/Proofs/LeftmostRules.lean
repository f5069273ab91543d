import LeftCorner.Proofs.CornerItems
import LeftCorner.Proofs.CornerSets

/-!
# Leftmost rules

Names that are repeated are dropped at every choice, so a choice in a choice has dropped its own before the choice
around it drops more. It comes to the same to let all variants of a phrase name their leftmost rules in order and to drop
what is repeated once, at the end. No rule is missed: a tree that any variant takes as its left corner is of a leftmost
rule.
-/

namespace LeftCorner

section EraseDups

variable {α : Type} [BEq α] [LawfulBEq α]

/-- The induction follows `eraseDups`, which goes on with what differs from the first. -/
theorem eraseDups_filter (p : α → Bool) : ∀ as : List α, (as.filter p).eraseDups = as.eraseDups.filter p
  | [] => rfl
  | a :: as => by
    have ih := eraseDups_filter p (as.filter fun b => !b == a)
    rw [List.filter_filter] at ih
    rw [List.eraseDups_cons, List.filter_cons, List.filter_cons]
    split
    next =>
      rw [List.eraseDups_cons, List.filter_filter, ← ih]
      simp only [Bool.and_comm]
    next ha =>
      rw [← ih]
      congr 1
      refine List.filter_congr fun b _ => ?_
      by_cases hb : b = a <;> simp [hb, ha]
termination_by as => as.length
decreasing_by exact Nat.lt_succ_of_le (List.length_filter_le _ _)

theorem eraseDups_of_nodup {as : List α} (h : as.Nodup) : as.eraseDups = as := by
  induction as with
  | nil => rfl
  | cons a as ih =>
    obtain ⟨ha, has⟩ := List.nodup_cons.mp h
    have hne : as.filter (fun b => !b == a) = as :=
      List.filter_eq_self.mpr fun b hb => by simpa using fun he : b = a => ha (he ▸ hb)
    rw [List.eraseDups_cons, hne, ih has]

/-- Repetitions may be dropped in two parts before they are dropped in the whole. -/
theorem eraseDups_append_congr {as bs cs ds : List α} (hac : as.eraseDups = cs.eraseDups)
    (hbd : bs.eraseDups = ds.eraseDups) : (as ++ bs).eraseDups = (cs ++ ds).eraseDups := by
  have hmem : ∀ x, as.elem x = cs.elem x := fun x => by
    rw [Bool.eq_iff_iff, List.elem_iff, List.elem_iff, ← List.mem_eraseDups, hac, List.mem_eraseDups]
  rw [List.eraseDups_append, List.eraseDups_append, List.removeAll, List.removeAll, eraseDups_filter, eraseDups_filter,
    hac, hbd]
  simp only [hmem]

end EraseDups

namespace Phrase

/-- The rules of a choice are told apart where it is put together; a bound or a sequence adds no name. -/
theorem nodup_leftmost : ∀ e : Phrase, e.leftmost.Nodup
  | term _ => .nil
  | rule name => List.nodup_singleton name
  | bounded e _ => nodup_leftmost e
  | choice es => RuleTable.nodup_eraseDups (leftmostOfEach es)
  | sequence [] => .nil
  | sequence (e :: _) => nodup_leftmost e

mutual

theorem eraseDups_leftmost_variants : ∀ (e : Phrase) (bound : Bound),
    ((e.variants bound).flatMap fun v => v.1.leftmost).eraseDups = e.leftmost.eraseDups
  | term _, _ | rule _, _ | sequence _, _ => by simp [variants]
  | bounded e own, _ => eraseDups_leftmost_variants e own
  | choice es, bound => by
    rw [leftmost, eraseDups_of_nodup (RuleTable.nodup_eraseDups _)]
    exact eraseDups_leftmost_variantsOfEach es bound

theorem eraseDups_leftmost_variantsOfEach : ∀ (es : List Phrase) (bound : Bound),
    ((variantsOfEach bound es).flatMap fun v => v.1.leftmost).eraseDups = (leftmostOfEach es).eraseDups
  | [], _ => rfl
  | e :: es, bound => by
    rw [variantsOfEach, List.flatMap_append, leftmostOfEach]
    exact eraseDups_append_congr (eraseDups_leftmost_variants e bound) (eraseDups_leftmost_variantsOfEach es bound)

end

/-- A node that is taken as a left corner is a tree of a leftmost rule. -/
theorem exists_tree_of_corner? {e : Phrase} {p rest : Pending} {n : Node} (h : e.corner? p = some (.node n, rest)) :
    ∃ t : Tree, n = t.toNode ∧ t.rule ∈ e.leftmost := by
  obtain ⟨rfl, ⟨s, hs⟩ | ⟨t, ht⟩⟩ := corner?_eq_some h
  · cases hs
  · cases ht
    exact ⟨t, rfl, mem_leftmost_of_corner? h⟩

/-- A phrase names each of its leftmost rules once, in the order in which its variants name them first. Whatever is
pending, a variant takes no node but a tree of one of these rules as its left corner. -/
theorem leftmost_covers_variants (e : Phrase) (bound : Bound) :
    e.leftmost.Nodup ∧ e.leftmost = ((e.variants bound).flatMap fun v => v.1.leftmost).eraseDups ∧
      ∀ v ∈ e.variants bound, ∀ (p rest : Pending) (n : Node), v.1.corner? p = some (.node n, rest) →
        ∃ t : Tree, n = t.toNode ∧ t.rule ∈ e.leftmost := by
  refine ⟨nodup_leftmost e, ?_, ?_⟩
  · rw [eraseDups_leftmost_variants, eraseDups_of_nodup (nodup_leftmost e)]
  · intro v hv p rest n h
    obtain ⟨t, ht, hn⟩ := exists_tree_of_corner? h
    exact ⟨t, ht, leftmost_subset_of_variant hv hn⟩

/-- Two choices, one of them under a bound, name the rule `item` three times between them, and the second variant takes
a tree of it. -/
theorem nested_leftmost_covers_variants :
    let product : Phrase := rule "item" + "*" + rule "expr"
    let e : Phrase := (rule "expr" ||| product ||| rule "item").tighterThan 10 ||| (rule "sum" + "-") ||| rule "item"
    let t : Tree := ⟨"item", 0, [.terminal "1"]⟩
    e.leftmost = ["expr", "item", "sum"] ∧
      ((e.variants .standard).flatMap fun v => v.1.leftmost) = ["expr", "item", "item", "sum", "item"] ∧
      (product, .below 10) ∈ e.variants .standard ∧
      product.corner? [.node t.toNode, .token "*"] = some (.node t.toNode, [.token "*"]) ∧ t.rule ∈ e.leftmost := by
  intro product e t
  have hv : (product, Bound.below 10) ∈ e.variants .standard := .tail _ (.head _)
  have hc : product.corner? [.node t.toNode, .token "*"] = some (.node t.toNode, [.token "*"]) := rfl
  obtain ⟨-, hl, htaken⟩ := leftmost_covers_variants e .standard
  obtain ⟨u, hu, hm⟩ := htaken _ hv _ _ _ hc
  obtain rfl := Tree.toNode_inj.mp hu
  exact ⟨hl, rfl, hv, hc, hm⟩

end Phrase

end LeftCorner
