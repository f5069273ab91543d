import LeftCorner.Proofs.Frame

/-!
# Left spines

The left spine of a node are the trees that one meets on the way down the first children. At the front of a run only the
outermost loop reduces: what is parsed behind it, under other bounds and for other targets, never gets there, and a
failure puts the front back. So a tree that was put at the front stems from a corner of the target, at a level that the
bound in force admits, and its first child is what stood at the front before. The same is then true of its left spine.
-/

namespace LeftCorner

namespace Node

mutual

/-- The trees that stand leftmost in a node, from the outermost on. -/
def leftSpine : Node → List Tree
  | terminal _ => []
  | tree rule level children => ⟨rule, level, children⟩ :: leftSpineBelow children

/-- The left spine of the first of some children. -/
def leftSpineBelow : List Node → List Tree
  | [] => []
  | c :: _ => leftSpine c

end

/-- All trees on the left spine stem from corners of the target and have levels that the bound admits. -/
def SpineWithin (g : Grammar) (target : RuleName) (bound : Bound) (n : Node) : Prop :=
  ∀ u ∈ n.leftSpine, g.IsCorner target u.rule ∧ bound.admits u.level

variable {g : Grammar} {target rule : RuleName} {bound : Bound} {level : Level} {c : Node} {more : List Node}

theorem spineWithin_terminal (token : String) : (terminal token).SpineWithin g target bound := by
  simp [SpineWithin, leftSpine]

/-- A tree over some children makes the left spine of the first of them one longer. -/
theorem SpineWithin.tree (hc : c.SpineWithin g target bound) (hr : g.IsCorner target rule) (hl : bound.admits level) :
    (Node.tree rule level (c :: more)).SpineWithin g target bound := by
  intro u hu
  rw [leftSpine, leftSpineBelow] at hu
  rcases List.mem_cons.mp hu with rfl | hu
  · exact ⟨hr, hl⟩
  · exact hc u hu

end Node

/-- The left spine of the front, if anything is pending, is within what the target and the bound allow. -/
def Pending.FrontWithin (g : Grammar) (target : RuleName) (bound : Bound) (p : Pending) : Prop :=
  ∀ i ∈ p.head?, i.toNode.SpineWithin g target bound

namespace Grammar

variable {g : Grammar} {target : RuleName} {bound : Bound} {p : Pending}

theorem frontWithin_tokens (tokens : List String) : Pending.FrontWithin g target bound (tokens.map .token) := by
  intro i hi
  obtain ⟨s, -, rfl⟩ := List.mem_map.mp (List.mem_of_mem_head? hi)
  exact Node.spineWithin_terminal s

/-- One reduction puts a tree on top of the front, or leaves the front as it was. Nothing is asked of what parses the
rules behind it. -/
theorem IsPlain.spineWithin_reduce (hg : g.IsPlain) (call : RuleParser) (hp : p.FrontWithin g target bound) :
    (g.reduce call target bound p).Meets (fun node _ => node.SpineWithin g target bound)
      (Pending.FrontWithin g target bound) True := by
  refine Production.meets_attemptFirst (fun d hd q hq => ?_) hp
  obtain ⟨hcorner, a, ha, hadmits, hv⟩ := mem_productions.mp hd
  obtain ⟨-, hlevel, hbuild, -⟩ := Alternative.mem_productions.mp hv
  refine (d.attempt_front call q).imp ?_ ?_
  · rintro _ _ ⟨i, behind, more, rfl, rfl⟩
    rw [hbuild, hlevel, hg d.rule a ha]
    exact (hq i rfl).tree hcorner hadmits
  · intro rest hfront i hi
    exact hq i (hfront ▸ hi)

/-- The outermost loop goes on with what it has put at the front. -/
theorem IsPlain.spineWithin_parse (hg : g.IsPlain) (n : Nat) (hp : p.FrontWithin g target bound) :
    (g.parse n target bound p).Meets (fun t _ => t.toNode.SpineWithin g target bound)
      (Pending.FrontWithin g target bound) True := by
  induction n generalizing p with
  | zero => trivial
  | succ n ih =>
    refine meets_parse_succ ((hg.spineWithin_reduce (g.parse n) hp).imp ?_ ?_)
    · intro node rest hnode
      refine ih fun i hi => ?_
      cases hi
      exact hnode
    · intro rest hfront
      refine ⟨hfront, ?_⟩
      rintro t q rfl - -
      exact hfront (.node t.toNode) rfl

/-- In a tree that is parsed from raw tokens, all trees on the left spine stem from corners of the rule that was asked
for, at levels that the bound admits. -/
theorem leftSpine_of_parse (hg : g.IsPlain) {n : Nat} {tokens : List String} {t : Tree} {rest : Pending}
    (h : g.parse n target bound (tokens.map .token) = .matched t rest) :
    ∀ u ∈ t.toNode.leftSpine, g.IsCorner target u.rule ∧ bound.admits u.level := by
  have hraw : Pending.FrontWithin g target bound (tokens.map .token) := frontWithin_tokens tokens
  have hr := hg.spineWithin_parse n hraw
  rw [h] at hr
  exact hr

/-- A sum for an expression of level 10 at most. The spine goes down through the first term. -/
theorem sums_leftSpine_of_parse :
    let g : Grammar := ofDefinitions "sums" sumDefinitions
    let term : Node := .tree "term" 0 [.terminal "n"]
    let sum : Node := .tree "sum" 10 [.tree "expr" 0 [term], .terminal "+", term]
    let whole : Tree := ⟨"expr", 0, [sum]⟩
    g.IsPlain ∧ g.parse 9 "expr" (.atMost 10) (["n", "+", "n"].map .token) = .matched whole [] ∧
      whole.toNode.leftSpine.map Tree.rule = ["expr", "sum", "expr", "term"] ∧
      ∀ u ∈ whole.toNode.leftSpine, g.IsCorner "expr" u.rule ∧ (Bound.atMost 10).admits u.level := by
  intro g term sum whole
  have hg : g.IsPlain := isPlain_ofDefinitions (by simp [sumDefinitions, Alternative.plain])
  have h : g.parse 9 "expr" (.atMost 10) (["n", "+", "n"].map .token) = .matched whole [] := rfl
  exact ⟨hg, h, rfl, leftSpine_of_parse hg h⟩

end Grammar

end LeftCorner
