import LeftCorner.Phrase.Match

/-!
# What can be a left corner

Whether a phrase takes the front as its left corner does not depend on what stands behind it. A tree is taken only if
its rule can stand leftmost in the phrase, and what stands leftmost in a variant can do so in the whole.
-/

namespace LeftCorner

/-- Whether a tree is taken depends on the front. -/
theorem Pending.takeTree?_of_front {welcome : Tree → Bool} {i : Item} {q : Pending}
    (h : Pending.takeTree? welcome (i :: q) = none) (r : Pending) : Pending.takeTree? welcome (i :: r) = none := by
  cases hr : Pending.takeTree? welcome (i :: r) with
  | none => rfl
  | some c =>
    obtain ⟨hp, hw⟩ := Pending.takeTree?_eq_some.mp hr
    cases hp
    rw [Pending.takeTree?_eq_some.mpr ⟨rfl, hw⟩] at h
    cases h

namespace Phrase

theorem leftmost_subset_of_variant {e : Phrase} {bound : Bound} {v : Phrase × Bound} (hv : v ∈ e.variants bound) :
    v.1.leftmost ⊆ e.leftmost := by
  refine of_variant (P := fun f _ => f.leftmost ⊆ e.leftmost) (fun _ _ _ h => h) ?_ hv (List.Subset.refl _)
  intro es _ h f hf name hn
  apply h
  rw [leftmost, List.mem_eraseDups, leftmostOfEach_eq_flatMap]
  exact List.mem_flatMap.mpr ⟨f, hf, hn⟩

/-- A tree that is taken as a left corner is one of a leftmost rule. -/
theorem mem_leftmost_of_corner? : ∀ {e : Phrase} {t : Tree} {q : Pending} {c : Item × Pending},
    e.corner? (.node t.toNode :: q) = some c → t.rule ∈ e.leftmost
  | term _, _, _, _, h => by
    obtain ⟨c, ht, -⟩ := Option.map_eq_some_iff.mp h
    cases (Pending.takeToken?_eq_some.mp ht).1
  | rule name, t, q, _, h => by
    obtain ⟨⟨u, r⟩, ht, -⟩ := Option.map_eq_some_iff.mp h
    obtain ⟨hp, hn⟩ := Pending.takeTree?_eq_some.mp ht
    obtain ⟨hn', -⟩ := List.cons.inj hp
    obtain rfl : t = u := Tree.toNode_inj.mp (Item.node.inj hn')
    simpa [leftmost] using hn
  | bounded e _, _, _, _, h => mem_leftmost_of_corner? (e := e) h
  | sequence (e :: _), _, _, _, h => mem_leftmost_of_corner? (e := e) h

/-- What stands behind the front makes no difference to a left corner. -/
theorem corner?_of_front : ∀ {e : Phrase} {i : Item} {q : Pending}, e.corner? (i :: q) = some (i, q) →
    ∀ r, e.corner? (i :: r) = some (i, r)
  | term t, i, q, h, r => by
    obtain ⟨⟨s, q⟩, ht, he⟩ := Option.map_eq_some_iff.mp h
    cases he
    rw [corner?, Pending.takeToken?_eq_some.mpr ⟨rfl, (Pending.takeToken?_eq_some.mp ht).2⟩]
    rfl
  | rule name, i, q, h, r => by
    obtain ⟨⟨t, q⟩, ht, he⟩ := Option.map_eq_some_iff.mp h
    cases he
    rw [corner?, Pending.takeTree?_eq_some.mpr ⟨rfl, (Pending.takeTree?_eq_some.mp ht).2⟩]
    rfl
  | bounded e _, _, _, h, r => corner?_of_front (e := e) h r
  | sequence (e :: _), _, _, h, r => corner?_of_front (e := e) h r

theorem corner?_eq_none_of_front {e : Phrase} {i : Item} {q : Pending} (h : e.corner? (i :: q) = none) (r : Pending) :
    e.corner? (i :: r) = none := by
  cases hr : e.corner? (i :: r) with
  | none => rfl
  | some c =>
    cases (corner?_eq_some hr).1
    rw [corner?_of_front hr q] at h
    cases h

end Phrase

end LeftCorner
