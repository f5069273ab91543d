import LeftCorner.Proofs.Reductions

/-!
# Enough allowance

A reduction of two or more items makes the items fewer. One of a single item either takes a raw token, or it
takes a tree and all the rest of the phrase matches nothing. If the rules can be ranked so that every reduction
of the second kind goes down, then an allowance that is linear in the number of items suffices for every parse
and all parses within it.

The measure of the pending items counts those behind the front, and adds the rank of the front. A parse within
another starts behind the left corner, and so on fewer items.
-/

namespace LeftCorner

namespace Phrase

/-- A phrase that can match nothing. -/
inductive Nullable : Phrase → Prop where
  | bounded {e bound} (h : Nullable e) : Nullable (bounded e bound)
  | choice {e es} (he : e ∈ es) (h : Nullable e) : Nullable (choice es)
  | sequence {es} (h : ∀ e ∈ es, Nullable e) : Nullable (sequence es)

/-- A phrase that a lone tree of a rule can match: the rule stands leftmost, and the rest can match nothing. -/
inductive Lone (name : RuleName) : Phrase → Prop where
  | rule : Lone name (rule name)
  | bounded {e bound} (h : Lone name e) : Lone name (bounded e bound)
  | sequence {e es} (h : Lone name e) (hs : ∀ f ∈ es, Nullable f) : Lone name (sequence (e :: es))

theorem not_nullable_literal (s : String) : ¬ Nullable (literal s) := nofun

theorem not_lone_term {name : RuleName} (t : Term) : ¬ Lone name (term t) := nofun

theorem Lone.eq_of_rule {name own : RuleName} (h : Lone name (Phrase.rule own)) : name = own := by
  cases h
  rfl

/-- A literal token cannot be left out. -/
theorem not_lone_sequence {name : RuleName} {e : Phrase} {s : String} {es : List Phrase}
    (hs : literal s ∈ es) : ¬ Lone name (sequence (e :: es)) := by
  intro h
  cases h with
  | sequence h hn => exact not_nullable_literal s (hn _ hs)

end Phrase

/-- A parser of rules that comes to an end on up to `k` items. It leaves fewer of them if it succeeds, and no
more if it fails. -/
def RuleParser.Consumes (k : Nat) (call : RuleParser) : Prop :=
  ∀ name bound p, p.length ≤ k →
    (call name bound p).Meets (fun _ rest => rest.length < p.length) (fun rest => rest.length ≤ p.length) False

namespace Phrase

variable {k : Nat} {call : RuleParser}

mutual

theorem consumes_parse (hc : RuleParser.Consumes k call) : ∀ (e : Phrase) (bound : Bound) (p : Pending),
    p.length ≤ k → (e.parse call bound p).Meets
      (fun nodes rest => rest.length + nodes.length ≤ p.length ∧ (nodes = [] → e.Nullable))
      (fun rest => rest.length ≤ p.length) False
  | term t, _, p, _ => by
    rw [parse]
    split
    next token rest ht =>
      obtain ⟨rfl, -⟩ := Pending.takeToken?_eq_some.mp ht
      simp
    next => exact Nat.le_refl _
  | rule name, bound, p, hp => by
    refine Attempt.Meets.map ((hc name bound p hp).imp ?_ fun _ h => h)
    intro t rest h
    exact ⟨h, by simp⟩
  | bounded e own, _, p, hp => by
    refine (consumes_parse hc e own p hp).imp ?_ fun _ h => h
    intro nodes rest ⟨hl, hn⟩
    exact ⟨hl, fun h => .bounded (hn h)⟩
  | choice es, bound, p, hp => by
    refine (consumes_parseFirst hc es bound p hp).imp ?_ fun _ h => h
    intro nodes rest ⟨hl, hn⟩
    refine ⟨hl, fun h => ?_⟩
    obtain ⟨e, he, hn⟩ := hn h
    exact .choice he hn
  | sequence es, bound, p, hp => by
    refine (consumes_parseEach hc es bound p hp).imp ?_ fun _ h => h
    intro nodes rest ⟨hl, hn⟩
    exact ⟨hl, fun h => .sequence (hn h)⟩

theorem consumes_parseFirst (hc : RuleParser.Consumes k call) :
    ∀ (es : List Phrase) (bound : Bound) (p : Pending), p.length ≤ k →
      (parseFirst call es bound p).Meets
        (fun nodes rest => rest.length + nodes.length ≤ p.length ∧ (nodes = [] → ∃ e ∈ es, e.Nullable))
        (fun rest => rest.length ≤ p.length) False
  | [], _, _, _ => Nat.le_refl _
  | e :: es, bound, p, hp => by
    have he : (e.parse call bound p).Meets
        (fun nodes rest => rest.length + nodes.length ≤ p.length ∧ (nodes = [] → ∃ f ∈ e :: es, f.Nullable))
        (fun rest => rest.length ≤ p.length) False := by
      refine (consumes_parse hc e bound p hp).imp ?_ fun _ h => h
      intro nodes rest ⟨hl, hn⟩
      exact ⟨hl, fun h => ⟨e, List.mem_cons_self, hn h⟩⟩
    apply he.orElse
    intro rest hr
    refine (consumes_parseFirst hc es bound rest (Nat.le_trans hr hp)).imp ?_ fun _ h => Nat.le_trans h hr
    intro nodes rest' ⟨hl, hn⟩
    refine ⟨Nat.le_trans hl hr, fun h => ?_⟩
    obtain ⟨f, hf, hn⟩ := hn h
    exact ⟨f, List.mem_cons_of_mem _ hf, hn⟩

theorem consumes_parseEach (hc : RuleParser.Consumes k call) :
    ∀ (es : List Phrase) (bound : Bound) (p : Pending), p.length ≤ k →
      (parseEach call es bound p).Meets
        (fun nodes rest => rest.length + nodes.length ≤ p.length ∧ (nodes = [] → ∀ e ∈ es, e.Nullable))
        (fun rest => rest.length ≤ p.length) False
  | [], _, _, _ => ⟨Nat.le_refl _, by simp⟩
  | e :: es, bound, p, hp => by
    refine Attempt.Meets.followedBy (consumes_parse hc e bound p hp) fun nodes rest ⟨hl, hn⟩ => ?_
    have hr : rest.length ≤ k := by omega
    refine (consumes_parseEach hc es bound rest hr).imp ?_ fun rest' h => ?_
    · intro more rest' ⟨hl', hn'⟩
      refine ⟨by rw [List.length_append]; omega, fun h => ?_⟩
      obtain ⟨h, h'⟩ := List.append_eq_nil_iff.mp h
      intro f hf
      rcases List.mem_cons.mp hf with rfl | hf
      · exact hn h
      · exact hn' h' f hf
    · simp only [Pending.restore, List.length_append, List.length_map]
      omega

end

/-- What was matched starts with the left corner. If that is a tree and all that was matched, the phrase is one
that a lone tree can match. If the completion fails, the left corner is the front again. -/
theorem consumes_complete (hc : RuleParser.Consumes k call) : ∀ (e : Phrase) (bound : Bound) {p q : Pending}
    {left : Item}, p.length ≤ k → e.corner? q = some (left, p) →
      (e.complete call left bound p).Meets
        (fun nodes rest => ∃ more, nodes = left.toNode :: more ∧ rest.length + more.length ≤ p.length ∧
          (more = [] → ∀ t : Tree, left = .node t.toNode → e.Lone t.rule))
        (fun rest => ∃ behind, rest = left :: behind ∧ behind.length ≤ p.length) False
  | term t, bound, p, q, left, _, hl => by
    obtain ⟨⟨s, q⟩, ht, he⟩ := Option.map_eq_some_iff.mp hl
    cases he
    exact ⟨[], rfl, Nat.le_refl _, by simp⟩
  | rule name, bound, p, q, left, _, hl => by
    obtain ⟨⟨t, q⟩, ht, he⟩ := Option.map_eq_some_iff.mp hl
    have hn := (Pending.takeTree?_eq_some.mp ht).2
    cases he
    refine ⟨[], rfl, Nat.le_refl _, fun _ u hu => ?_⟩
    obtain rfl : t = u := Tree.toNode_inj.mp (Item.node.inj hu)
    obtain rfl : t.rule = name := by simpa using hn
    exact .rule
  | bounded e own, bound, p, q, left, hp, hl => by
    refine (consumes_complete hc e own hp hl).imp ?_ fun _ h => h
    intro nodes rest ⟨more, hm, hr, hlone⟩
    exact ⟨more, hm, hr, fun h t ht => .bounded (hlone h t ht)⟩
  | sequence (e :: es), bound, p, q, left, hp, hl => by
    refine Attempt.Meets.followedBy (consumes_complete hc e bound hp hl) ?_
    intro nodes rest ⟨more, hm, hr, hlone⟩
    subst hm
    have hrest : rest.length ≤ k := by omega
    refine (consumes_parseEach hc es bound rest hrest).imp ?_ fun rest' h => ?_
    · intro more' rest' ⟨hl', hn'⟩
      refine ⟨more ++ more', rfl, by rw [List.length_append]; omega, fun h t ht => ?_⟩
      obtain ⟨h, h'⟩ := List.append_eq_nil_iff.mp h
      exact .sequence (hlone h t ht) (hn' h')
    · refine ⟨Pending.restore more rest', restore_corner hl _, ?_⟩
      simp only [Pending.restore, List.length_append, List.length_map]
      omega

end Phrase

namespace Grammar

/-- Ranks that go down with every reduction of a lone tree, in a grammar whose constructors build a tree or
hand back a child. The names of rules rank below the limit, and no name ranks above it. -/
structure Ranked (g : Grammar) (rank : RuleName → Nat) (limit : Nat) : Prop where
  rank_le : ∀ name, rank name ≤ limit
  rank_lt : ∀ rule a, g.Offers rule a → rank rule < limit
  lone : ∀ rule a name v bound, g.Offers rule a → v ∈ a.phrase.variants bound → v.1.Lone name →
    rank rule < rank name
  build : ∀ rule a, g.Offers rule a → a.build = Constructor.tree ∨ a.build = Constructor.middle

/-- What the front contributes to the measure: most if it is a token, and the rank of its rule if it is a tree. -/
def frontWeight (rank : RuleName → Nat) (limit : Nat) : Item → Nat
  | .token _ => limit + 1
  | .node (.terminal _) => 1
  | .node (.tree rule _ _) => rank rule + 1

/-- The measure that reductions at the front make smaller. -/
def weight (rank : RuleName → Nat) (limit : Nat) : Pending → Nat
  | [] => 0
  | i :: rest => frontWeight rank limit i + (limit + 2) * rest.length

variable {g : Grammar} {rank : RuleName → Nat} {limit : Nat}

theorem weight_cons (i : Item) (rest : Pending) :
    weight rank limit (i :: rest) = frontWeight rank limit i + (limit + 2) * rest.length := rfl

theorem Ranked.frontWeight_le (hg : g.Ranked rank limit) (i : Item) :
    frontWeight rank limit i ≤ limit + 1 := by
  cases i with
  | token s => exact Nat.le_refl _
  | node n =>
    cases n with
    | terminal s => simp [frontWeight]
    | tree rule level children => exact Nat.succ_le_succ (hg.rank_le rule)

theorem frontWeight_pos (i : Item) : 0 < frontWeight rank limit i := by
  rcases i with _ | _ | _ <;> simp [frontWeight]

theorem Ranked.weight_le (hg : g.Ranked rank limit) (p : Pending) :
    weight rank limit p ≤ (limit + 2) * p.length := by
  cases p with
  | nil => simp [weight]
  | cons i rest =>
    have h := hg.frontWeight_le i
    rw [weight_cons, List.length_cons, Nat.mul_succ]
    omega

/-- Fewer items weigh less than any more. -/
theorem Ranked.weight_lt_of_length (hg : g.Ranked rank limit) {i : Item} {q p : Pending}
    (h : p.length ≤ q.length) : weight rank limit p < weight rank limit (i :: q) := by
  have hw := hg.weight_le p
  have hm := Nat.mul_le_mul_left (limit + 2) h
  have hi : 0 < frontWeight rank limit i := frontWeight_pos i
  rw [weight_cons]
  omega

/-- The node that a reduction puts in front weighs less than what was there. -/
theorem Ranked.weight_reduced (hg : g.Ranked rank limit) {rule : RuleName} {a : Alternative}
    {v : Phrase × Bound} {bound : Bound} (ha : g.Offers rule a) (hv : v ∈ a.phrase.variants bound)
    {left : Item} {more : List Node} {q rest : Pending} (hl : rest.length + more.length ≤ q.length)
    (hleft : (∃ s, left = .token s) ∨ ∃ t : Tree, left = .node t.toNode)
    (hlone : more = [] → ∀ t : Tree, left = .node t.toNode → v.1.Lone t.rule) :
    weight rank limit (.node (a.build rule a.level (left.toNode :: more)) :: rest) <
      weight rank limit (left :: q) := by
  cases more with
  | nil =>
    have hb : a.build rule a.level [left.toNode] = .tree rule a.level [left.toNode] := by
      rcases hg.build rule a ha with hb | hb <;> rw [hb] <;> rfl
    have hr := hg.rank_lt rule a ha
    have hm := Nat.mul_le_mul_left (limit + 2) hl
    simp only [List.length_nil, Nat.add_zero] at hm
    rw [hb, weight_cons, weight_cons]
    rcases hleft with ⟨s, rfl⟩ | ⟨t, rfl⟩
    · simp only [frontWeight]
      omega
    · have hlt := hg.lone rule a t.rule v bound ha hv (hlone rfl t rfl)
      simp only [Tree.toNode, frontWeight]
      omega
  | cons n ns =>
    have hn := hg.frontWeight_le (.node (a.build rule a.level (left.toNode :: n :: ns)))
    have hlt : rest.length + 1 ≤ q.length := by
      simp only [List.length_cons] at hl
      omega
    have hm := Nat.mul_le_mul_left (limit + 2) hlt
    have hi : 0 < frontWeight rank limit left := frontWeight_pos left
    rw [Nat.mul_succ] at hm
    rw [weight_cons, weight_cons]
    omega

/-- A match makes the pending items weigh less, and a failure leaves the front as it is. Neither leaves more of
them. -/
theorem Ranked.meets_attempt (hg : g.Ranked rank limit) {call : RuleParser} {rule : RuleName} {a : Alternative}
    {bound : Bound} {d : Production} {i : Item} {q : Pending} (hc : RuleParser.Consumes q.length call)
    (ha : g.Offers rule a) (hd : d ∈ a.productions bound rule) :
    (d.attempt call (i :: q)).Meets
      (fun node rest => weight rank limit (.node node :: rest) < weight rank limit (i :: q) ∧
        rest.length ≤ q.length)
      (fun rest => ∃ behind, rest = i :: behind ∧ behind.length ≤ q.length) False := by
  obtain ⟨v, hv, rfl⟩ := List.mem_map.mp hd
  unfold Production.attempt
  split
  next => exact ⟨q, rfl, Nat.le_refl _⟩
  next left rest hl =>
    obtain ⟨he, hleft⟩ := Phrase.corner?_eq_some hl
    cases he
    refine Attempt.Meets.map ((Phrase.consumes_complete hc v.1 v.2 (Nat.le_refl _) hl).imp ?_ fun _ h => h)
    intro nodes rest ⟨more, hn, hr, hlone⟩
    subst hn
    exact ⟨hg.weight_reduced ha hv hr hleft hlone, by omega⟩

theorem Ranked.meets_attemptFirst (hg : g.Ranked rank limit) {k : Nat} {call : RuleParser}
    (hc : RuleParser.Consumes k call) {bound : Bound} {i : Item} {ds : List Production} {q : Pending}
    (hds : ∀ d ∈ ds, ∃ a, g.Offers d.rule a ∧ d ∈ a.productions bound d.rule) (hq : q.length ≤ k) :
    (Production.attemptFirst call ds (i :: q)).Meets
      (fun node rest => weight rank limit (.node node :: rest) < weight rank limit (i :: q) ∧
        rest.length ≤ q.length)
      (fun rest => ∃ behind, rest = i :: behind ∧ behind.length ≤ q.length) False := by
  refine Production.meets_attemptFirst ?_ ⟨q, rfl, Nat.le_refl _⟩
  rintro d hd _ ⟨behind, rfl, hb⟩
  obtain ⟨a, ha, hm⟩ := hds d hd
  have hcb : RuleParser.Consumes behind.length call := fun name bound p hp => hc name bound p (by omega)
  have hw := Nat.mul_le_mul_left (limit + 2) hb
  refine (hg.meets_attempt hcb ha hm).imp ?_ ?_
  · rintro node rest ⟨hlt, hl⟩
    rw [weight_cons (i := i)] at hlt ⊢
    exact ⟨by omega, by omega⟩
  · rintro rest ⟨behind', he, hb'⟩
    exact ⟨behind', he, Nat.le_trans hb' hb⟩

/-- An allowance above the weight of the pending items suffices. The induction is on the allowance: what follows a
reduction weighs less than what was there before it, and so does all that a parse within it can start from. -/
theorem Ranked.meets_parse (hg : g.Ranked rank limit) (n : Nat) (name : RuleName) (bound : Bound) (p : Pending)
    (hn : weight rank limit p < n) :
    (g.parse n name bound p).Meets (fun _ rest => rest.length < p.length)
      (fun rest => rest.length ≤ p.length) False := by
  induction n generalizing name bound p with
  | zero => omega
  | succ n ih =>
    cases p with
    | nil =>
      have hr : g.reduce (g.parse n) name bound [] = .failed [] := Production.attemptFirst_nil _ _
      rw [parse, hr]
      exact Nat.le_refl _
    | cons i q =>
      have hc : RuleParser.Consumes q.length (g.parse n) := by
        intro name bound p hp
        have hw : weight rank limit p < weight rank limit (i :: q) := hg.weight_lt_of_length hp
        exact ih name bound p (by omega)
      have hd : ∀ d ∈ g.productions name bound, ∃ a, g.Offers d.rule a ∧ d ∈ a.productions bound d.rule := by
        intro d hd
        obtain ⟨-, a, ha, -, hm⟩ := mem_productions.mp hd
        exact ⟨a, ha, hm⟩
      refine meets_parse_succ ((hg.meets_attemptFirst hc hd (Nat.le_refl _)).imp ?_ ?_)
      · rintro node rest ⟨hw, hl⟩
        refine (ih name bound (.node node :: rest) (by omega)).imp ?_ ?_
        · intro _ rest' h
          rw [List.length_cons] at h ⊢
          omega
        · intro rest' h
          rw [List.length_cons] at h ⊢
          omega
      · rintro _ ⟨behind, rfl, hb⟩
        refine ⟨Nat.succ_le_succ hb, ?_⟩
        rintro t r he - -
        cases he
        exact Nat.lt_succ_of_le hb

/-- With the allowance that is linear in the number of items every parse comes to its end. -/
theorem Ranked.parse_ne_exhausted (hg : g.Ranked rank limit) (hl : limit ≤ g.rules.length) {n : Nat} {p : Pending}
    (hn : g.allowance p ≤ n) (name : RuleName) (bound : Bound) : g.parse n name bound p ≠ .exhausted := by
  have hw := hg.weight_le p
  have hm : (limit + 2) * p.length ≤ (g.rules.length + 2) * p.length :=
    Nat.mul_le_mul_right _ (Nat.add_le_add_right hl 2)
  have hlt : weight rank limit p < n := by
    rw [allowance] at hn
    omega
  intro he
  have h := hg.meets_parse n name bound p hlt
  rwa [he] at h

end Grammar

end LeftCorner
