import LeftCorner.Proofs.CornerItems
import LeftCorner.Proofs.Lasting

/-!
# Stuck reductions

A reduction that fails has tried every production at the front, one after another. What the productions reduced behind
the front before they failed is still there, so an early one may be able to match after a late one has failed, and the
next reduction goes through where this one was stuck.

That takes a choice behind a left corner, or a change of bounds. Without them, a production that has failed at an item
goes on failing there. The item itself may only be reduced to trees that lead to other targets, and these trees only to
others of that kind. So what is stuck remains stuck, whatever is reduced behind it.
-/

namespace LeftCorner

/-- A grammar of trees in which a production, under a bound, can go on in one way only: no other bound is written, and
nothing but single tokens is chosen behind a left corner. -/
structure Grammar.Steady (g : Grammar) (bound : Bound) : Prop where
  plain : g.IsPlain
  nodup : g.rules.names.Nodup
  boundsIn : g.BoundsIn (· = bound)
  determined : ∀ rule a, g.Offers rule a → ∀ v ∈ a.phrase.variants bound, v.1.Determined

/-- However the items behind it advance, a production fails at an item and changes nothing. -/
def Production.Blocked (g : Grammar) (bound : Bound) (i : Item) (q : Pending) (d : Production) : Prop :=
  ∀ r, g.Advances (· = bound) q r → d.attempt g.settled (i :: r) = .failed (i :: r)

theorem Production.Blocked.advances {g : Grammar} {bound : Bound} {d : Production} {i : Item} {q r : Pending}
    (h : d.Blocked g bound i q) (hr : g.Advances (· = bound) q r) : d.Blocked g bound i r :=
  fun _ hs => h _ (hr.trans hs)

namespace Grammar

/-- At the front stands a tree that leads to no tree of a name. -/
def Foreign (g : Grammar) (name : RuleName) (p : Pending) : Prop :=
  ∃ t q, p = .node (Tree.toNode t) :: q ∧ t.rule ∈ g.rules.names ∧ ¬ g.IsCorner name t.rule

variable {g : Grammar} {bound : Bound} {name target : RuleName} {call : RuleParser} {d : Production}
  {i : Item} {p q : Pending}

/-- A production of a corner is one for the target, whatever it was found for. -/
theorem IsCorner.mem_productions (h : g.IsCorner name d.rule) (hd : d ∈ g.productions target bound) :
    d ∈ g.productions name bound :=
  Grammar.mem_productions.mpr ⟨h, (Grammar.mem_productions.mp hd).2⟩

theorem Steady.leftmost_subset (hg : g.Steady bound) (hd : d ∈ g.productions target bound) :
    d.phrase.leftmost ⊆ g.rules.leftmost d.rule := by
  obtain ⟨-, a, ha, -, hv⟩ := mem_productions.mp hd
  obtain ⟨-, -, -, hv⟩ := Alternative.mem_productions.mp hv
  intro name hn
  exact List.mem_flatMap.mpr ⟨a, RuleTable.mem_lookup_of_offers hg.nodup ha, Phrase.leftmost_subset_of_variant hv hn⟩

/-- A production builds a tree of its rule. -/
theorem Steady.exists_tree (hg : g.Steady bound) (hd : d ∈ g.productions target bound) {node : Node} {rest : Pending}
    (hm : d.attempt call p = .matched node rest) : ∃ t : Tree, node = t.toNode ∧ t.rule = d.rule := by
  obtain ⟨-, a, ha, -, hv⟩ := mem_productions.mp hd
  obtain ⟨-, -, hbuild, -⟩ := Alternative.mem_productions.mp hv
  have hfront := d.attempt_front call p
  rw [hm] at hfront
  obtain ⟨i, q, more, -, rfl⟩ := hfront
  rw [hbuild, hg.plain _ _ ha]
  exact ⟨⟨d.rule, d.level, i.toNode :: more⟩, rfl, rfl⟩

theorem Foreign.idle (h : g.Foreign name p) (hg : g.Steady bound) (hd : d ∈ g.productions name bound) :
    d.attempt call p = .failed p := by
  obtain ⟨t, q, rfl, -, hc⟩ := h
  cases hl : d.phrase.corner? (.node t.toNode :: q) with
  | none => exact Production.attempt_of_corner?_eq_none hl
  | some c =>
    have hr := hg.leftmost_subset hd (Phrase.mem_leftmost_of_corner? hl)
    exact absurd ((mem_productions.mp hd).1.leftmost hr) hc

theorem Steady.foreign_of_match (hg : g.Steady bound) (hd : d ∈ g.productions target bound) {node : Node}
    {rest : Pending} (hm : d.attempt call p = .matched node rest) (hn : ¬ g.IsCorner name d.rule) :
    g.Foreign name (.node node :: rest) := by
  obtain ⟨t, rfl, ht⟩ := hg.exists_tree hd hm
  obtain ⟨-, a, ha, -⟩ := mem_productions.mp hd
  refine ⟨t, rest, rfl, ?_, ?_⟩
  · rw [ht]
    exact ha.mem_names
  · rwa [ht]

/-- A tree that leads elsewhere is only reduced to such trees. -/
theorem Foreign.advance (h : g.Foreign name p) (hg : g.Steady bound) (ha : g.Advance (· = bound) p q) :
    g.Foreign name q := by
  cases ha with
  | @front target _ d _ node rest hb hd hm =>
    rw [hb] at hd
    refine hg.foreign_of_match hd hm fun hc => ?_
    rw [h.idle hg (hc.mem_productions hd)] at hm
    cases hm
  | @behind i p q _ =>
    obtain ⟨t, r, hp, hn⟩ := h
    cases hp
    exact ⟨t, q, rfl, hn⟩

theorem settled_of_idle (h : ∀ d ∈ g.productions name bound, d.attempt g.settled p = .failed p)
    (ht : p.takeTree? (fun t => t.rule == name && bound.admits t.level) = none) :
    g.settled name bound p = .failed p :=
  settled_of_untaken (Production.attemptFirst_of_failed h) ht

theorem Foreign.settled (h : g.Foreign name p) (hg : g.Steady bound) : g.settled name bound p = .failed p := by
  refine settled_of_idle (fun d hd => h.idle hg hd) ?_
  obtain ⟨t, q, rfl, ht, hc⟩ := h
  have hne : t.rule ≠ name := by
    rintro rfl
    exact hc ⟨_, by rw [corners?_eq, if_pos ht], RuleTable.self_mem_cornersFrom _ _⟩
  simp [Pending.takeTree?, Tree.toNode, hne]

/-- If no production for a target matches at the front, the front stays as it is or comes to lead elsewhere. -/
theorem Steady.front_or_foreign (hg : g.Steady bound) (hb : ∀ d ∈ g.productions name bound, d.Blocked g bound i q)
    (ha : g.Advances (· = bound) (i :: q) p) :
    (∃ r, p = i :: r ∧ g.Advances (· = bound) q r) ∨ g.Foreign name p := by
  induction ha with
  | refl => exact .inl ⟨q, rfl, .refl⟩
  | tail _ h ih =>
    rcases ih with ⟨r, rfl, hr⟩ | hf
    · cases h with
      | @front target _ d _ node rest he hd hm =>
        rw [he] at hd
        refine .inr (hg.foreign_of_match hd hm fun hc => ?_)
        rw [hb d (hc.mem_productions hd) r hr] at hm
        cases hm
      | behind h => exact .inl ⟨_, rfl, hr.tail h⟩
    · exact .inr (hf.advance hg h)

end Grammar

namespace Production

variable {g : Grammar} {bound : Bound} {call : RuleParser} {target : RuleName} {i : Item}

theorem blocked_attempt (hc : call.Lasts g bound) (ha : call.Advances g (· = bound)) (hg : g.Steady bound)
    {d : Production} (hd : d ∈ g.productions target bound) (q : Pending) :
    (d.attempt call (i :: q)).Meets (fun _ _ => True)
      (fun rest => ∃ behind, rest = i :: behind ∧ g.Advances (· = bound) q behind ∧ d.Blocked g bound i behind)
      True := by
  obtain ⟨hown, he⟩ := boundsIn_of_mem hg.boundsIn rfl hd
  have hdet : d.phrase.Determined := by
    obtain ⟨-, a, ho, -, hv⟩ := Grammar.mem_productions.mp hd
    exact hg.determined _ a ho _ (Alternative.mem_productions.mp hv).2.2.2
  cases hl : d.phrase.corner? (i :: q) with
  | none =>
    rw [attempt_of_corner?_eq_none hl]
    exact ⟨q, rfl, .refl, fun r _ => attempt_of_corner?_eq_none (Phrase.corner?_eq_none_of_front hl r)⟩
  | some c =>
    obtain ⟨left, rest⟩ := c
    cases (Phrase.corner?_eq_some hl).1
    have hlasts := Phrase.lasts_complete hc ha d.phrase he hdet hl
    have hadvances := Phrase.advances_complete ha d.phrase (rfl : bound = bound) he hl
    rw [attempt, hl]
    simp only [hown]
    cases h : d.phrase.complete call i bound q with
    | matched nodes rest => trivial
    | failed rest =>
      rw [h] at hlasts hadvances
      obtain ⟨behind, hr, hq⟩ := hadvances
      obtain ⟨behind', hr', hf⟩ := hlasts
      rw [Phrase.restore_corner hl] at hr hr'
      obtain rfl : behind' = behind := (List.cons.inj (hr'.symm.trans hr)).2
      refine ⟨behind', hr, hq, fun r hr => ?_⟩
      have hfails := hf r hr
      rw [Phrase.restore_corner hl] at hfails
      refine attempt_of_failed (Phrase.corner?_of_front hl r) ?_
      rw [hown, hfails]
    | exhausted => trivial

/-- Each production fails on what the failures before it left behind the front. -/
theorem blocked_attemptFirst (hc : call.Lasts g bound) (ha : call.Advances g (· = bound)) (hg : g.Steady bound) :
    ∀ {ds : List Production}, (∀ d ∈ ds, d ∈ g.productions target bound) → ∀ q, (attemptFirst call ds (i :: q)).Meets
      (fun _ _ => True) (fun rest => ∃ behind, rest = i :: behind ∧ g.Advances (· = bound) q behind ∧
        ∀ d ∈ ds, d.Blocked g bound i behind) True
  | [], _, q => ⟨q, rfl, .refl, fun d hd => by cases hd⟩
  | d :: ds, hds, q => by
    obtain ⟨hd, hds⟩ := List.forall_mem_cons.mp hds
    refine (blocked_attempt hc ha hg hd q).orElse fun rest ⟨behind, hr, hq, hb⟩ => ?_
    rw [hr]
    refine (blocked_attemptFirst hc ha hg hds behind).imp (fun _ _ _ => trivial) ?_
    intro rest' ⟨last, hr', hl, hb'⟩
    exact ⟨last, hr', hq.trans hl, List.forall_mem_cons.mpr ⟨hb.advances hl, hb'⟩⟩

end Production

namespace Grammar

variable {g : Grammar} {bound : Bound} {target : RuleName} {p rest : Pending}

/-- The outcomes of all parses last. The induction is on the allowance; nested parses have less of it. -/
theorem Steady.lasts_parse (hg : g.Steady bound) (n : Nat) : RuleParser.Lasts g bound (g.parse n) := by
  induction n with
  | zero => exact fun _ _ => trivial
  | succ n ih =>
    intro name p
    have ha : RuleParser.Advances g (· = bound) (g.parse n) := advances_parse hg.boundsIn n
    cases p with
    | nil =>
      rw [Phrase.parse, parse, reduce, Production.attemptFirst_nil]
      refine ⟨[], rfl, fun q hq => ?_⟩
      rw [eq_nil_of_advances hq, Phrase.parse, settled_of_idle (fun d _ => d.attempt_nil g.settled) rfl]
      rfl
    | cons i q =>
      have hb : (g.reduce (g.parse n) name bound (i :: q)).Meets _ _ True :=
        Production.blocked_attemptFirst ih ha hg (fun _ h => h) q
      rw [Phrase.parse, parse]
      cases hr : g.reduce (g.parse n) name bound (i :: q) with
      | matched node rest => exact ih name (.node node :: rest)
      | failed rest =>
        rw [hr] at hb
        obtain ⟨behind, rfl, -, hb⟩ := hb
        dsimp only
        split
        next t r ht =>
          obtain ⟨hp, hw⟩ := Pending.takeTree?_eq_some.mp ht
          cases hp
          simp only [Bool.and_eq_true, beq_iff_eq] at hw
          refine ⟨[t.toNode], rfl, fun rest q hrest hq => ?_⟩
          rcases hg.front_or_foreign (fun d hd => (hb d hd).advances hrest) hq with ⟨last, rfl, hl⟩ | hf
          · refine .inr ⟨last, rfl, hl, ?_⟩
            rw [Phrase.parse, settled_of_no_production (fun d hd => hb d hd last (hrest.trans hl)) hw.1 hw.2]
            rfl
          · left
            rw [Phrase.parse, hf.settled hg]
            rfl
        next ht =>
          refine ⟨i :: behind, rfl, fun q hq => ?_⟩
          rcases hg.front_or_foreign hb hq with ⟨r, rfl, hr⟩ | hf
          · rw [Phrase.parse, settled_of_idle (fun d hd => hb d hd r hr) (Pending.takeTree?_of_front ht r)]
            rfl
          · rw [Phrase.parse, hf.settled hg]
            rfl
      | exhausted => trivial

/-- In a steady grammar, a reduction that has failed fails again where it left off, and changes nothing more. -/
theorem Steady.reduce_stays_stuck (hg : g.Steady bound) {n : Nat}
    (h : g.reduce (g.parse n) target bound p = .failed rest) :
    ∃ m, ∀ k, m ≤ k → g.reduce (g.parse k) target bound rest = .failed rest := by
  have hs : g.reduce g.settled target bound rest = .failed rest := by
    cases p with
    | nil =>
      rw [reduce, Production.attemptFirst_nil] at h
      cases h
      exact Production.attemptFirst_nil g.settled _
    | cons i q =>
      have hb : (g.reduce (g.parse n) target bound (i :: q)).Meets _ _ True :=
        Production.blocked_attemptFirst (hg.lasts_parse n) (advances_parse hg.boundsIn n) hg (fun _ hd => hd) q
      rw [h] at hb
      obtain ⟨behind, rfl, -, hb⟩ := hb
      exact Production.attemptFirst_of_failed fun d hd => hb d hd behind .refl
  have he := Production.eventually_attemptFirst g.tends_settled (g.productions target bound) rest
  obtain ⟨m, hm⟩ := Filter.eventually_atTop.mp he
  exact ⟨m, fun k hk => (hm k hk).trans hs⟩

theorem steady_ofDefinitions {name : String} {ds : List Definition}
    (hb : ∀ d ∈ ds, d.alternative.build = Constructor.tree)
    (hi : ∀ d ∈ ds, d.alternative.phrase.BoundsIn (· = bound))
    (hd : ∀ d ∈ ds, ∀ v ∈ d.alternative.phrase.variants bound, v.1.Determined) :
    (ofDefinitions name ds).Steady bound where
  plain := isPlain_ofDefinitions hb
  nodup := nodup_names_ofDefinitions name ds
  boundsIn rule a ha := hi ⟨rule, a⟩ (offers_ofDefinitions.mp ha)
  determined rule a ha := hd ⟨rule, a⟩ (offers_ofDefinitions.mp ha)

/-- Letters in brackets. -/
def brackets : Grammar := ofDefinitions "brackets" [
  ⟨"letter", .plain 0 (.literal "a")⟩,
  ⟨"group", .plain 0 ("(" + .rule "letter" + ")")⟩]

theorem brackets_steady : brackets.Steady .standard := by
  refine steady_ofDefinitions (by simp [Alternative.plain]) ?_ ?_
  · intro d hd own ho
    rcases List.mem_pair.mp hd with rfl | rfl
    · exact absurd ho List.not_mem_nil
    · exact absurd ho List.not_mem_nil
  · intro d hd v hv
    rcases List.mem_pair.mp hd with rfl | rfl
    · obtain rfl := List.mem_singleton.mp hv
      exact .term
    · obtain rfl := List.mem_singleton.mp hv
      have hes : ∀ e ∈ [Phrase.literal "(", .rule "letter", .literal ")"], e.Determined := by
        simp only [List.forall_mem_cons, Phrase.literal]
        exact ⟨.term, .rule, .term, by simp⟩
      exact .sequence hes

/-- The letter is reduced before the closing bracket is missed. -/
theorem brackets_reduce_stays_stuck :
    let rest : Pending := [.token "(", .node (.tree "letter" 0 [.terminal "a"]), .token "$"]
    brackets.Steady .standard ∧
      brackets.reduce (brackets.parse 9) "group" .standard (.ofTokens ["(", "a"] Pending.endMarker) = .failed rest ∧
      ∃ m, ∀ k, m ≤ k → brackets.reduce (brackets.parse k) "group" .standard rest = .failed rest := by
  intro rest
  have h : brackets.reduce (brackets.parse 9) "group" .standard (.ofTokens ["(", "a"] Pending.endMarker) =
      .failed rest := rfl
  exact ⟨brackets_steady, h, brackets_steady.reduce_stays_stuck h⟩

/-- Two kinds of sentence. The first may have a word in the middle, or else a phrase that begins with a word. -/
def sentences : Grammar := ofDefinitions "sentences" [
  ⟨"word", .plain 0 (.literal "b")⟩,
  ⟨"phrase", .plain 0 (.rule "word" + "c")⟩,
  ⟨"sentence", .plain 0 ("a" + (.rule "word" ||| .rule "phrase") + "d")⟩,
  ⟨"sentence", .plain 0 ("a" + .rule "phrase" + "e")⟩]

/-- The first kind of sentence takes the word and misses its end. The second makes a phrase of the word and misses its
own end, and now there is no word for the first to take. -/
theorem sentences_reduce_after_failure :
    let word : Node := .tree "word" 0 [.terminal "b"]
    let phrase : Node := .tree "phrase" 0 [word, .terminal "c"]
    let rest : Pending := [.token "a", .node phrase, .token "d", .token "$"]
    sentences.IsPlain ∧
      sentences.reduce (sentences.parse 9) "sentence" .standard (.ofTokens ["a", "b", "c", "d"] Pending.endMarker) =
        .failed rest ∧
      sentences.reduce (sentences.parse 9) "sentence" .standard rest =
        .matched (.tree "sentence" 0 [.terminal "a", phrase, .terminal "d"]) [.token "$"] :=
  ⟨isPlain_ofDefinitions (by simp [Alternative.plain]), rfl, rfl⟩

end Grammar

end LeftCorner
