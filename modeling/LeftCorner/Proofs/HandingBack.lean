import LeftCorner.Proofs.Frame

/-!
# Left items that go back

A phrase can be completed from any left item, also from one that is no left corner of it. If it cannot be completed the
item goes back to the front, behind which a grammar without rules changes nothing. An item that does not fit goes back
as it is. One that fits has become a node of the match, and is made an item again when a later element fails. That gives
back raw tokens and trees, but a terminal that was given as a node comes back as a raw token. Only a rule at the front of
the phrase takes such a node, and no left corner is one.
-/

namespace LeftCorner

/-- In a grammar without rules, parsing a rule takes a tree that is there already or leaves all as it is. -/
theorem Grammar.confined_parse_of_rules_eq_nil {g : Grammar} (hg : g.rules = []) (n : Nat) :
    RuleParser.Confined Eq (fun _ => True) (g.parse n) := by
  cases n with
  | zero => exact fun _ _ _ _ => trivial
  | succ n =>
    intro name bound p _
    have hr : g.reduce (g.parse n) name bound p = .failed p := by
      have hnone : g.productions name bound = [] := by simp [productions, corners?_eq, hg, RuleTable.names]
      rw [reduce, hnone, Production.attemptFirst]
    refine meets_parse_succ ?_
    rw [hr]
    exact ⟨rfl, fun t q hp _ _ => hp⟩

theorem Pending.local_eq : Pending.Local Eq := ⟨fun _ => rfl, Eq.trans, fun i _ _ h => congrArg (i :: ·) h⟩

namespace Phrase

/-- Whether the element that gets the left item is a rule. -/
def opensWithRule : Phrase → Bool
  | rule _ => true
  | bounded e _ => e.opensWithRule
  | sequence (e :: _) => e.opensWithRule
  | term _ | choice _ | sequence [] => false

/-- The item that a left item goes back as. -/
def handedBack (e : Phrase) (left : Item) : Item := if e.opensWithRule then .ofMatched left.toNode else left

theorem handedBack_of_ne {e : Phrase} {left : Item} (h : ∀ s, left ≠ .node (.terminal s)) : e.handedBack left = left := by
  have hm : Item.ofMatched left.toNode = left := by
    cases left with
    | token s => rfl
    | node n =>
      cases n with
      | terminal s => exact absurd rfl (h s)
      | tree rule level children => rfl
  rw [handedBack, hm, ite_self]

variable {call : RuleParser}

/-- What is matched is the left item and what was pending behind it. The induction is on the phrase, of which only the
first element gets the left item. -/
theorem meets_complete_of_confined_eq (hc : call.Confined Eq fun _ => True) : ∀ (e : Phrase) (left : Item)
    (bound : Bound) (p : Pending), (e.complete call left bound p).Meets
      (fun nodes rest => Pending.restore nodes rest = e.handedBack left :: p) (fun rest => rest = e.handedBack left :: p)
      True
  | term _, .token _, _, _ | term _, .node _, _, _ | rule _, .node _, _, _ | rule _, .token _, _, _ | choice _, _, _, _
  | sequence [], _, _, _ => rfl
  | bounded e own, left, _, p => meets_complete_of_confined_eq hc e left own p
  | sequence (e :: es), left, bound, p => by
    refine Attempt.Meets.followedBy (meets_complete_of_confined_eq hc e left bound p) fun nodes rest hn => ?_
    have hes : (parseEach call es bound rest).Confined Eq [] rest :=
      confined_parseEach Pending.local_eq hc es rest trivial fun _ _ => trivial
    refine hes.imp ?_ ?_
    · rintro more rest' ⟨_, rfl, hm⟩
      rw [Pending.restore_append, ← hm]
      exact hn
    · rintro rest' ⟨behind, hr, rfl⟩
      rw [hr]
      exact hn

/-- In a grammar without rules, a phrase that cannot be completed leaves what was pending with the left item in front of
it, as a raw token if it was a terminal node that a rule took, and as it was otherwise. So raw tokens and trees go back as
they were. -/
theorem complete_hands_back {g : Grammar} (hg : g.rules = []) {n : Nat} {e : Phrase} {left : Item} {bound : Bound}
    {p rest : Pending} (h : e.complete (g.parse n) left bound p = .failed rest) :
    rest = e.handedBack left :: p ∧ ((∀ s, left ≠ .node (.terminal s)) → rest = left :: p) := by
  have hm := meets_complete_of_confined_eq (Grammar.confined_parse_of_rules_eq_nil hg n) e left bound p
  rw [h] at hm
  have hr : rest = e.handedBack left :: p := hm
  refine ⟨hr, fun hleft => ?_⟩
  rw [hr, handedBack_of_ne hleft]

/-- The tree is matched by the rule, the token `b` and a tree behind it by what follows, and the last token is missed. -/
theorem pairs_complete_hands_back :
    let e : Phrase := ((rule "pair").upTo 10 + "b" + rule "item") + "c"
    let left : Item := .node (.tree "pair" 10 [.terminal "a"])
    let p : Pending := [.token "b", .node (.tree "item" 0 []), .token "d", .token "$"]
    (Grammar.empty "none").rules = [] ∧
      e.complete ((Grammar.empty "none").parse 1) left .standard p = .failed (left :: p) ∧
      ∀ s, left ≠ .node (.terminal s) := by
  intro e left p
  have hg : (Grammar.empty "none").rules = [] := rfl
  have hleft : ∀ s, left ≠ .node (.terminal s) := fun s => by simp [left]
  cases hc : e.complete ((Grammar.empty "none").parse 1) left .standard p with
  | matched nodes rest => cases hc
  | failed rest => exact ⟨hg, congrArg Attempt.failed ((complete_hands_back hg hc).2 hleft), hleft⟩
  | exhausted => cases hc

/-- A terminal node in front of the token that is missed comes back as a raw token. -/
theorem terminal_not_handed_back : ¬ ∀ (e : Phrase) (left : Item) (bound : Bound) (p rest : Pending),
    e.complete ((Grammar.empty "none").parse 1) left bound p = .failed rest → rest = left :: p := by
  intro h
  have hr := h (rule "item" + "+") (.node (.terminal "n")) .standard [.token "-"] [.token "n", .token "-"] rfl
  exact absurd hr (by decide)

end Phrase

end LeftCorner
