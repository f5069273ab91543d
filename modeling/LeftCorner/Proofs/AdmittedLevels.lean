import LeftCorner.Proofs.LoneReductions
import LeftCorner.Proofs.Reductions

/-!
# Only the levels that occur matter

A run asks a bound about the levels of alternatives, and about the level of the tree that it would take in the end.
Where alternatives build trees or hand back the middle one of three nodes, all trees that come to stand among the
pending items were there before or are at the level of an alternative. So bounds that agree on these levels may stand
for one another. They are handed on to nested parses, which is why the two runs are compared step by step: after each
step the same items are pending, and all trees among them are at levels on which the bounds agree.
-/

namespace LeftCorner

/-- Bounds that admit the same among some levels. -/
def Bound.Agree (levels : Level → Prop) (bound bound' : Bound) : Prop :=
  ∀ level, levels level → bound.admits level = bound'.admits level

/-- All trees among some nodes are at levels of a kind. What is nested in them is of no account. -/
def Leveled (levels : Level → Prop) (ns : List Node) : Prop := ∀ t : Tree, t.toNode ∈ ns → levels t.level

variable {levels : Level → Prop} {bound bound' : Bound} {g : Grammar} {p : Pending}

theorem Leveled.of_append {ns ms : List Node} (h : Leveled levels (ns ++ ms)) : Leveled levels ms :=
  fun t ht => h t (List.mem_append_right ns ht)

theorem Pending.takeTree?_congr {welcome welcome' : Tree → Bool}
    (h : ∀ t q, p = .node t.toNode :: q → welcome t = welcome' t) : p.takeTree? welcome = p.takeTree? welcome' := by
  unfold takeTree?
  split
  next rule level children rest => rw [h ⟨rule, level, children⟩ rest rfl]
  next => rfl

/-- What is not built anew is one of the nodes that were matched. -/
theorem Constructor.eq_tree_or_mem {build : Constructor} (hb : build = Constructor.tree ∨ build = Constructor.middle)
    (rule : RuleName) (level : Level) (children : List Node) :
    build rule level children = .tree rule level children ∨ build rule level children ∈ children := by
  rcases hb with rfl | rfl
  · exact .inl rfl
  · unfold Constructor.middle
    split
    next => exact .inr (by simp)
    next => exact .inl rfl

namespace Attempt

variable {α : Type} {onFailure : Pending → Prop} {cutShort : Prop}

/-- What comes after a failure may be replaced where it is the same on all that the failure can leave. -/
theorem Meets.orElse_congr {a : Attempt α} {next next' : Pending → Attempt α} {onMatch : α → Pending → Prop}
    (h : a.Meets onMatch onFailure cutShort) (hn : ∀ rest, onFailure rest → next rest = next' rest) :
    a.orElse next = a.orElse next' := by
  cases a with
  | failed rest => exact hn rest h
  | matched _ _ | exhausted => rfl

/-- What comes after a match may be replaced where it is the same on all that the match can leave. -/
theorem Meets.followedBy_congr {a : Attempt (List Node)} {next next' : Pending → Attempt (List Node)}
    {onMatch : List Node → Pending → Prop} (h : a.Meets onMatch onFailure cutShort)
    (hn : ∀ nodes rest, onMatch nodes rest → next rest = next' rest) : a.followedBy next = a.followedBy next' := by
  cases a with
  | matched nodes rest => simp only [Attempt.followedBy, hn nodes rest h]
  | failed _ | exhausted => rfl

end Attempt

namespace Grammar

/-- All alternatives are at levels of a kind. -/
def LevelsIn (g : Grammar) (levels : Level → Prop) : Prop := ∀ rule a, g.Offers rule a → levels a.level

theorem LevelsIn.leveled_step (hl : g.LevelsIn levels) (hb : g.BuildsOrUnwraps) {ns ms : List Node}
    (h : g.Step ns ms) (hn : Leveled levels ns) : Leveled levels ms := by
  obtain @⟨rule, a, children, front, back, ha, -⟩ := h
  intro t ht
  rcases List.mem_append.mp ht with ht | ht
  · exact hn t (by simp [ht])
  · rcases List.mem_cons.mp ht with ht | ht
    · rcases Constructor.eq_tree_or_mem (hb rule a ha) rule a.level children with he | hm
      · rw [he] at ht
        rw [← t.level_toNode, ht]
        exact hl rule a ha
      · exact hn t (by simp [ht, hm])
    · exact hn t (by simp [ht])

/-- Reductions lead to trees at levels of a kind from trees at such levels. -/
def KeepsLevels (g : Grammar) (levels : Level → Prop) : Prop :=
  ∀ ⦃ns ms⦄, g.Reduces ns ms → Leveled levels ns → Leveled levels ms

theorem LevelsIn.keepsLevels (hl : g.LevelsIn levels) (hb : g.BuildsOrUnwraps) : g.KeepsLevels levels :=
  fun _ _ h hn => h.keeps (P := Leveled levels) (fun _ _ => hl.leveled_step hb) hn

end Grammar

/-- While all trees are at levels of a kind, a parser of rules makes the same of two bounds. -/
def RuleParser.Interchanges (levels : Level → Prop) (bound bound' : Bound) (call : RuleParser) : Prop :=
  ∀ name p, Leveled levels p.nodes → call name bound p = call name bound' p

variable {call : RuleParser}

namespace Phrase

mutual

theorem parse_interchange (hs : call.Sound g) (hk : g.KeepsLevels levels) (hc : call.Interchanges levels bound bound') :
    ∀ (e : Phrase) (p : Pending), Leveled levels p.nodes → e.parse call bound p = e.parse call bound' p
  | term _, _, _ => rfl
  | rule name, p, hp => by rw [parse, hc name p hp, parse]
  | bounded _ _, _, _ => rfl
  | choice es, p, hp => parseFirst_interchange hs hk hc es p hp
  | sequence es, p, hp => parseEach_interchange hs hk hc es p hp

theorem parseFirst_interchange (hs : call.Sound g) (hk : g.KeepsLevels levels)
    (hc : call.Interchanges levels bound bound') : ∀ (es : List Phrase) (p : Pending), Leveled levels p.nodes →
      parseFirst call es bound p = parseFirst call es bound' p
  | [], _, _ => rfl
  | e :: es, p, hp => by
    have hr := reads_parse hs e p (inForce_none bound')
    rw [parseFirst, parseFirst, parse_interchange hs hk hc e p hp]
    exact hr.orElse_congr fun rest h => parseFirst_interchange hs hk hc es rest (hk h hp)

theorem parseEach_interchange (hs : call.Sound g) (hk : g.KeepsLevels levels)
    (hc : call.Interchanges levels bound bound') : ∀ (es : List Phrase) (p : Pending), Leveled levels p.nodes →
      parseEach call es bound p = parseEach call es bound' p
  | [], _, _ => rfl
  | e :: es, p, hp => by
    have hr := reads_parse hs e p (inForce_none bound')
    rw [parseEach, parseEach, parse_interchange hs hk hc e p hp]
    exact hr.followedBy_congr fun nodes rest h => parseEach_interchange hs hk hc es rest (hk h.2 hp).of_append

end

theorem complete_interchange (hs : call.Sound g) (hk : g.KeepsLevels levels)
    (hc : call.Interchanges levels bound bound') : ∀ (e : Phrase) {p rest : Pending} {left : Item},
      e.corner? p = some (left, rest) → Leveled levels p.nodes →
        e.complete call left bound rest = e.complete call left bound' rest
  | term _, _, _, left, _, _ | rule _, _, _, left, _, _ => by cases left <;> rfl
  | bounded _ _, _, _, _, _, _ | choice _, _, _, _, _, _ | sequence [], _, _, _, _, _ => rfl
  | sequence (e :: es), p, rest, left, hleft, hp => by
    have hr := reads_complete hs e (inForce_none bound') hleft
    rw [complete, complete, complete_interchange hs hk hc e hleft hp]
    exact hr.followedBy_congr fun nodes rest h => parseEach_interchange hs hk hc es rest (hk h.2 hp).of_append

/-- A variant under another bound: the same, or one that stood under the bound in force. -/
def Rebound (bound bound' : Bound) (v w : Phrase × Bound) : Prop :=
  w.1 = v.1 ∧ (w.2 = v.2 ∨ v.2 = bound ∧ w.2 = bound')

mutual

theorem rebound_variants (bound bound' : Bound) : ∀ e : Phrase,
    List.Forall₂ (Rebound bound bound') (e.variants bound) (e.variants bound')
  | term _ | rule _ | sequence _ => .cons ⟨rfl, .inr ⟨rfl, rfl⟩⟩ .nil
  | bounded _ _ => List.forall₂_same.mpr fun _ _ => ⟨rfl, .inl rfl⟩
  | choice es => rebound_variantsOfEach bound bound' es

theorem rebound_variantsOfEach (bound bound' : Bound) : ∀ es : List Phrase,
    List.Forall₂ (Rebound bound bound') (variantsOfEach bound es) (variantsOfEach bound' es)
  | [] => .nil
  | e :: es => List.rel_append (rebound_variants bound bound' e) (rebound_variantsOfEach bound bound' es)

end

end Phrase

namespace Production

/-- Productions that differ at most in that one stands under a bound where the other stands under another one. -/
def Rebound (bound bound' : Bound) (d d' : Production) : Prop :=
  d'.rule = d.rule ∧ d'.level = d.level ∧ d'.build = d.build ∧
    Phrase.Rebound bound bound' (d.phrase, d.bound) (d'.phrase, d'.bound)

variable {ds ds' : List Production}

/-- Whatever a production is made of, its failure only reduces. -/
theorem reads_failed (hs : call.Sound g) (d : Production) (p : Pending) :
    (d.attempt call p).Meets (fun _ _ => True) (fun rest => g.Reduces p.nodes rest.nodes) True := by
  unfold attempt
  split
  next => exact .refl
  next left rest hleft =>
    exact Attempt.Meets.map ((Phrase.reads_complete hs d.phrase (Phrase.inForce_none d.bound) hleft).imp
      (fun _ _ _ => trivial) fun _ h => h)

theorem attempt_rebound (hs : call.Sound g) (hk : g.KeepsLevels levels)
    (hc : call.Interchanges levels bound bound') {d d' : Production} (hd : Rebound bound bound' d d')
    (hp : Leveled levels p.nodes) : d.attempt call p = d'.attempt call p := by
  obtain ⟨rule, level, build, e, own⟩ := d
  obtain ⟨rule', level', build', e', own'⟩ := d'
  obtain ⟨rfl, rfl, rfl, rfl, rfl | ⟨rfl, rfl⟩⟩ := hd
  · rfl
  · unfold attempt
    dsimp only
    split
    next => rfl
    next left rest hleft => rw [Phrase.complete_interchange hs hk hc _ hleft hp]

theorem attemptFirst_rebound (hs : call.Sound g) (hk : g.KeepsLevels levels)
    (hc : call.Interchanges levels bound bound') (hds : List.Forall₂ (Rebound bound bound') ds ds')
    (hp : Leveled levels p.nodes) : attemptFirst call ds p = attemptFirst call ds' p := by
  induction hds generalizing p with
  | nil => rfl
  | @cons d d' ds ds' hd _ ih =>
    rw [attemptFirst, attemptFirst, attempt_rebound hs hk hc hd hp]
    exact (reads_failed hs d' p).orElse_congr fun rest h => ih (hk h hp)

end Production

namespace Grammar

/-- The same alternatives are admitted, and their productions stand under the one bound or the other. -/
theorem LevelsIn.rebound_productions (hl : g.LevelsIn levels) (ha : bound.Agree levels bound') (target : RuleName) :
    List.Forall₂ (Production.Rebound bound bound') (g.productions target bound) (g.productions target bound') := by
  unfold productions
  cases g.corners? target with
  | none => exact .nil
  | some names =>
    refine List.rel_flatMap (R := fun r s => s = r ∧ r ∈ g.rules) (List.forall₂_same.mpr fun r hr => ?_) ?_
    · exact ⟨rfl, (List.mem_filter.mp hr).1⟩
    · rintro ⟨rule, alternatives⟩ _ ⟨rfl, hr⟩
      have hf : alternatives.filter (bound.admits ·.level) = alternatives.filter (bound'.admits ·.level) :=
        List.filter_congr fun a hm => ha a.level (hl rule a ⟨alternatives, hr, hm⟩)
      dsimp only
      rw [hf]
      refine List.rel_flatMap (R := Eq) (List.forall₂_same.mpr fun _ _ => rfl) ?_
      rintro a _ rfl
      refine List.rel_map (R := Phrase.Rebound bound bound') ?_ (Phrase.rebound_variants bound bound' a.phrase)
      exact fun v w hv => ⟨rfl, rfl, rfl, hv⟩

/-- The induction is on the allowance; nested parses have less of it. -/
theorem LevelsIn.interchanges_parse (hl : g.LevelsIn levels) (hb : g.BuildsOrUnwraps) (ha : bound.Agree levels bound')
    (n : Nat) : RuleParser.Interchanges levels bound bound' (g.parse n) := by
  induction n with
  | zero => exact fun _ _ _ => rfl
  | succ n ih =>
    intro name p hp
    have hs := g.sound_parse n
    have hk := hl.keepsLevels hb
    have hr := reads_reduce hs name bound' p
    have he : g.reduce (g.parse n) name bound p = g.reduce (g.parse n) name bound' p :=
      Production.attemptFirst_rebound hs hk ih (hl.rebound_productions ha name) hp
    rw [parse, parse, he]
    generalize g.reduce (g.parse n) name bound' p = outcome at hr
    cases outcome with
    | matched node rest => exact ih name _ (hk hr hp)
    | failed rest =>
      have hrest := hk hr hp
      have htake : (rest.takeTree? fun t => t.rule == name && bound.admits t.level) =
          rest.takeTree? fun t => t.rule == name && bound'.admits t.level := by
        apply Pending.takeTree?_congr
        rintro t q rfl
        rw [ha t.level (hrest t List.mem_cons_self)]
      simp only [htake]
    | exhausted => rfl

/-- The level of an alternative, or of a tree among the pending items. -/
def Occurs (g : Grammar) (p : Pending) (level : Level) : Prop :=
  (∃ rule a, g.Offers rule a ∧ a.level = level) ∨ ∃ t : Tree, .node t.toNode ∈ p ∧ t.level = level

/-- Bounds that admit the same among the levels that occur give the same outcome. So `atMost` a level and `below` the
next are the same, and where no level is above 100 the standard bound is the same as any looser one. -/
theorem parse_eq_of_agree (hb : g.BuildsOrUnwraps) (n : Nat) (name : RuleName) (p : Pending) :
    (∀ bound bound', Bound.Agree (g.Occurs p) bound bound' → g.parse n name bound p = g.parse n name bound' p) ∧
      (∀ limit, g.parse n name (.atMost limit) p = g.parse n name (.below (limit + 1)) p) ∧
      ((∀ level, g.Occurs p level → level ≤ 100) → ∀ bound : Bound,
        (∀ level, Bound.standard.admits level → bound.admits level) →
          g.parse n name .standard p = g.parse n name bound p) := by
  have hl : g.LevelsIn (g.Occurs p) := fun rule a ha => .inl ⟨rule, a, ha, rfl⟩
  have hp : Leveled (g.Occurs p) p.nodes := by
    intro t ht
    obtain ⟨i, hi, he⟩ := List.mem_map.mp ht
    cases i with
    | token s => cases he
    | node m => exact .inr ⟨t, he ▸ hi, rfl⟩
  have h : ∀ bound bound', Bound.Agree (g.Occurs p) bound bound' → g.parse n name bound p = g.parse n name bound' p :=
    fun _ _ ha => hl.interchanges_parse hb ha n name p hp
  refine ⟨h, fun limit => h _ _ fun level _ => ?_, fun hlevels bound hbound => h _ _ fun level hlevel => ?_⟩
  · rw [Bool.eq_iff_iff, Bound.admits_atMost, Bound.admits_below]
    exact Nat.lt_succ_iff.symm
  · have hle : Bound.standard.admits level := Bound.admits_atMost.mpr (hlevels level hlevel)
    rw [hle, hbound level hle]

/-- The group hands back a tree at a level of its own. No level lies between the two limits. -/
theorem arithmetic_parse_eq_of_agree :
    let group : Node := .tree "expr" 30 [.tree "item" 0 [.terminal "1"]]
    let p : Pending := [.token "(", .node group, .token ")", .token "*", .token "2", .token "+", .token "3"]
    let product : Node := .tree "mul" 10 [group, .terminal "*", .tree "expr" 0 [.tree "item" 0 [.terminal "2"]]]
    Arithmetic.grammar.BuildsOrUnwraps ∧ Bound.Agree (Arithmetic.grammar.Occurs p) (.below 20) (.atMost 10) ∧
      Arithmetic.grammar.parse 40 "expr" (.below 20) p =
        .matched ⟨"expr", 0, [product]⟩ [.token "+", .token "3"] := by
  intro group p product
  have hb := Arithmetic.ranked.build
  have ha : Bound.Agree (Arithmetic.grammar.Occurs p) (.below 20) (.atMost 10) := by
    rintro level (⟨rule, a, ha, rfl⟩ | ⟨t, ht, rfl⟩)
    · have hd : ∀ d ∈ Arithmetic.definitions,
          (Bound.below 20).admits d.alternative.level = (Bound.atMost 10).admits d.alternative.level := by decide
      exact hd _ (offers_ofDefinitions.mp ha)
    · have hi : ∀ i ∈ p, ∀ m ∈ i.tree?, (Bound.below 20).admits m.level = (Bound.atMost 10).admits m.level := by
        decide
      exact hi _ ht t rfl
  refine ⟨hb, ha, ?_⟩
  rw [(parse_eq_of_agree hb 40 "expr" p).1 _ _ ha]
  rfl

end Grammar

end LeftCorner
