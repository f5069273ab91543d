import LeftCorner.Proofs.Frame

/-!
# Failed reductions

A reduction that fails has tried every production, and each has taken the front off and put it back. The front is the
same item as before. What the productions reduced behind it before they failed stays reduced: a run of neighbours has
given way to the node that an alternative builds of them, whatever its constructor makes of them. So there are never more
items than before.
-/

namespace LeftCorner

namespace Grammar

/-- A run of neighbouring items gives way to the node that an alternative builds of them, if it licenses them as children.
The items around the run stay as they are. -/
inductive Replacement (g : Grammar) : Pending → Pending → Prop where
  | replace {rule a run} (front back : Pending) (ha : g.Offers rule a) (hrun : run ≠ [])
      (hl : a.Licenses (Pending.nodes run)) :
      Replacement g (front ++ run ++ back) (front ++ .node (a.build rule a.level (Pending.nodes run)) :: back)

/-- Any number of replacements one after another, wherever they take place. -/
abbrev Replaces (g : Grammar) : Pending → Pending → Prop := Relation.ReflTransGen g.Replacement

variable {g : Grammar} {p q : Pending}

theorem Replacement.behind (i : Item) (h : g.Replacement p q) : g.Replacement (i :: p) (i :: q) := by
  obtain ⟨front, back, ha, hrun, hl⟩ := h
  exact .replace (i :: front) back ha hrun hl

theorem local_replaces (g : Grammar) : Pending.Local g.Replaces :=
  Pending.local_reflTransGen fun i _ _ => Replacement.behind i

/-- Nodes that were matched, if they were put back, could give way to the node that is built of them. -/
theorem replacement_restore {rule : RuleName} {a : Alternative} {children : List Node} (ha : g.Offers rule a)
    (hc : children ≠ []) (hl : a.Licenses children) (rest : Pending) :
    g.Replacement (Pending.restore children rest) (.node (a.build rule a.level children) :: rest) := by
  have hn : Pending.nodes (children.map .ofMatched) = children := by
    simpa [Pending.restore] using Pending.nodes_restore children []
  have h : g.Replacement ([] ++ children.map .ofMatched ++ rest) _ :=
    .replace [] rest ha (by simpa using hc) (hn.symm ▸ hl)
  rwa [hn] at h

theorem Replacement.length_le (h : g.Replacement p q) : q.length ≤ p.length := by
  obtain ⟨front, back, -, hrun, -⟩ := h
  have hpos := List.length_pos_iff.mpr hrun
  simp only [List.length_append, List.length_cons]
  omega

/-- No run is empty, so items are never made more. -/
theorem Replaces.length_le (h : g.Replaces p q) : q.length ≤ p.length := by
  induction h with
  | refl => exact Nat.le_refl _
  | tail _ h ih => exact Nat.le_trans h.length_le ih

end Grammar

namespace Production

variable {g : Grammar} {call : RuleParser}

/-- A match replaces the front and the items behind it that became the other children. -/
theorem replaces_attempt (hs : call.Sound g) (hc : call.Confined g.Replaces fun _ => True) {rule : RuleName}
    {a : Alternative} {bound : Bound} {d : Production} (ha : g.Offers rule a) (hd : d ∈ a.productions bound rule)
    (p : Pending) : (d.attempt call p).Meets (fun node rest => g.Replaces p (.node node :: rest))
      (Pending.ChangedBehind g.Replaces p) True := by
  obtain ⟨⟨e, own⟩, hv, rfl⟩ := List.mem_map.mp hd
  unfold attempt
  split
  next => exact ⟨rfl, .refl⟩
  next left q hleft =>
    obtain ⟨rfl, -⟩ := Phrase.corner?_eq_some hleft
    have hlicensed := a.licenses_complete hs hv hleft
    have hbehind : (e.complete call left own q).Confined g.Replaces [left.toNode] q :=
      Phrase.confined_complete g.local_replaces hc e trivial (fun _ _ => trivial) hleft
    dsimp only at hlicensed ⊢
    cases h : e.complete call left own q with
    | matched children rest =>
      rw [h] at hlicensed hbehind
      obtain ⟨more, rfl, hmore⟩ := hbehind
      -- First come the changes behind the front; then the children, as if they were put back, give way to the node.
      have hlast := Grammar.replacement_restore ha (by simp) hlicensed.1 rest
      rw [Pending.restore_append, Phrase.restore_corner hleft] at hlast
      exact (g.local_replaces.behind left hmore).tail hlast
    | failed rest =>
      rw [h] at hbehind
      obtain ⟨behind, hr, hb⟩ := hbehind
      rw [Phrase.restore_corner hleft] at hr
      exact Pending.changedBehind_cons.mpr ⟨behind, hr, hb⟩
    | exhausted => trivial

end Production

namespace Grammar

theorem replaces_reduce {g : Grammar} {call : RuleParser} (hs : call.Sound g)
    (hc : call.Confined g.Replaces fun _ => True) (target : RuleName) (bound : Bound) (p : Pending) :
    (g.reduce call target bound p).Meets (fun node rest => g.Replaces p (.node node :: rest))
      (Pending.ChangedBehind g.Replaces p) True := by
  refine Production.confined_attemptFirst g.local_replaces (fun d hd q => ?_) p
  obtain ⟨-, a, ha, -, hv⟩ := mem_productions.mp hd
  exact d.replaces_attempt hs hc ha hv q

/-- Parsing does nothing but replace. The induction is on the allowance; nested parses have less of it. -/
theorem replaces_parse (g : Grammar) (n : Nat) : RuleParser.Confined g.Replaces (fun _ => True) (g.parse n) := by
  induction n with
  | zero => exact fun _ _ _ _ => trivial
  | succ n ih =>
    intro name bound p _
    exact confined_parse_succ g.local_replaces (replaces_reduce (g.sound_parse n) ih name bound p)
      fun q => ih name bound q trivial

/-- A reduction that fails leaves the front as it was and no more items than there were. Behind the front it has done
nothing but replace runs of items by nodes that alternatives build of them. -/
theorem reduce_failed_behind {g : Grammar} {n : Nat} {target : RuleName} {bound : Bound} {p rest : Pending}
    (h : g.reduce (g.parse n) target bound p = .failed rest) :
    rest.head? = p.head? ∧ rest.length ≤ p.length ∧ g.Replaces p.tail rest.tail := by
  have hr := replaces_reduce (g.sound_parse n) (g.replaces_parse n) target bound p
  rw [h] at hr
  exact ⟨hr.1, (hr.toChange g.local_replaces).length_le, hr.2⟩

/-- A group misses its closing parenthesis. The inner group has given way to the number that it encloses, and stays so. -/
theorem arithmetic_reduce_failed_behind :
    let one : Node := .tree "expr" 0 [.tree "item" 0 [.terminal "1"]]
    let p : Pending := .ofTokens ["(", "(", "1", ")", "+"] Pending.endMarker
    let rest : Pending := [.token "(", .node one, .token "+", .token Pending.endMarker]
    Arithmetic.grammar.reduce (Arithmetic.grammar.parse 6) "subexpr" .standard p = .failed rest ∧
      rest.head? = p.head? ∧ rest.length ≤ p.length ∧ Arithmetic.grammar.Replaces p.tail rest.tail := by
  intro one p rest
  have h : Arithmetic.grammar.reduce (Arithmetic.grammar.parse 6) "subexpr" .standard p = .failed rest := rfl
  exact ⟨h, reduce_failed_behind h⟩

end Grammar

end LeftCorner
