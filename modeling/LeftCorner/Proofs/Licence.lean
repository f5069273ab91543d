import LeftCorner.Proofs.Reductions

/-!
# Every tree is licensed

Where alternatives build trees, a run on raw tokens leaves only trees of which every one, however deeply it is
nested, has the name and the level of an alternative that licenses its children. It does not matter under
which bound a tree was made, nor whether the attempt that made it failed in the end.
-/

namespace LeftCorner

/-- A node whose trees all come from an alternative that licenses their children. -/
inductive Node.Licensed (g : Grammar) : Node → Prop where
  | terminal (token : String) : Licensed g (.terminal token)
  | tree {rule a children} (ha : g.Offers rule a) (hl : a.Licenses children)
      (hc : ∀ c ∈ children, Licensed g c) : Licensed g (.tree rule a.level children)

/-- Raw tokens are read as terminals. -/
theorem Node.licensed_tokens (g : Grammar) (tokens : List String) :
    ∀ n ∈ Pending.nodes (tokens.map .token), n.Licensed g := by
  intro n hn
  obtain ⟨i, hi, rfl⟩ := List.mem_map.mp hn
  obtain ⟨s, -, rfl⟩ := List.mem_map.mp hi
  exact .terminal s

namespace Grammar

variable {g : Grammar}

theorem IsPlain.licensed_step (hg : g.IsPlain) {ns ms : List Node} (h : g.Step ns ms)
    (hn : ∀ n ∈ ns, n.Licensed g) : ∀ n ∈ ms, n.Licensed g := by
  obtain ⟨front, back, ha, hl⟩ := h
  have hfront := fun n h => hn n (List.mem_append_left _ (List.mem_append_left _ h))
  have hchildren := fun n h => hn n (List.mem_append_left _ (List.mem_append_right _ h))
  have hback := fun n h => hn n (List.mem_append_right _ h)
  intro n hm
  rcases List.mem_append.mp hm with hm | hm
  · exact hfront n hm
  · rcases List.mem_cons.mp hm with rfl | hm
    · rw [hg _ _ ha]
      exact .tree ha hl hchildren
    · exact hback n hm

theorem IsPlain.licensed_reduces (hg : g.IsPlain) {ns ms : List Node} (h : g.Reduces ns ms)
    (hn : ∀ n ∈ ns, n.Licensed g) : ∀ n ∈ ms, n.Licensed g :=
  h.keeps (P := fun ns => ∀ n ∈ ns, n.Licensed g) (fun _ _ => hg.licensed_step) hn

/-- A parse of raw tokens returns a licensed tree of the rule and level that were asked for. What it leaves
pending, on success and on failure, is licensed too. -/
theorem parse_licensed (hg : g.IsPlain) (n : Nat) (name : RuleName) (bound : Bound) (tokens : List String) :
    (g.parse n name bound (tokens.map .token)).Meets
      (fun t rest => (t.rule = name ∧ bound.admits t.level) ∧ t.toNode.Licensed g ∧
        ∀ i ∈ rest, i.toNode.Licensed g)
      (fun rest => ∀ i ∈ rest, i.toNode.Licensed g) True := by
  have hraw := Node.licensed_tokens g tokens
  refine (g.sound_parse n name bound _).imp ?_ fun rest hr => ?_
  · intro t rest ⟨hn, hb, hr⟩
    have hall := hg.licensed_reduces hr hraw
    exact ⟨⟨hn, hb⟩, hall _ (by simp), fun i hi => hall _ (List.mem_cons_of_mem _ (List.mem_map_of_mem hi))⟩
  · have hall := hg.licensed_reduces hr hraw
    exact fun i hi => hall _ (List.mem_map_of_mem hi)

theorem pairs_parse_licensed :
    let pair : Tree := ⟨"pair", 1,
      [.tree "item" 0 [.terminal "1"], .terminal ",", .tree "item" 0 [.terminal "2"]]⟩
    pairs.IsPlain ∧ pairs.parse 9 "pair" .standard (["1", ",", "2", "$"].map .token) =
      .matched pair [.token "$"] ∧ pair.toNode.Licensed pairs := by
  intro pair
  have h : pairs.parse 9 "pair" .standard (["1", ",", "2", "$"].map .token) = .matched pair [.token "$"] :=
    rfl
  have hl := parse_licensed isPlain_pairs 9 "pair" .standard ["1", ",", "2", "$"]
  rw [h] at hl
  exact ⟨isPlain_pairs, h, hl.2.1⟩

end Grammar

end LeftCorner
