import LeftCorner.Grammar.Parse
import LeftCorner.Proofs.References

/-!
# Runs side by side

A run asks three things about what is pending: whether a term takes the front, whether a tree at the front is welcome,
and what a parser of rules makes of it. Where all of these are answered alike for two lists of items, and lead to lists
for which they are answered alike again, two runs go on side by side to the same end. One of the runs may be cut short
where one of the two parsers of rules may be.
-/

namespace LeftCorner

variable {α β : Type}

namespace Pending

/-- Either nothing is taken, or the same from both lists of items, which leaves related ones. -/
inductive TakenAlike (related : Pending → Pending → Prop) : Option (α × Pending) → Option (α × Pending) → Prop where
  | none : TakenAlike related none none
  | some (value : α) {p q : Pending} (h : related p q) : TakenAlike related (some (value, p)) (some (value, q))

variable {related : Pending → Pending → Prop}

theorem TakenAlike.refl (h : ∀ p, related p p) : ∀ c : Option (α × Pending), TakenAlike related c c
  | .none => .none
  | .some (value, rest) => .some value (h rest)

theorem TakenAlike.map {c d : Option (α × Pending)} (h : TakenAlike related c d) (f : α → β) :
    TakenAlike related (c.map fun (value, rest) => (f value, rest)) (d.map fun (value, rest) => (f value, rest)) := by
  cases h with
  | none => exact .none
  | some value h => exact .some (f value) h

/-- A term takes the same from related lists of items. -/
def TokenAlike (related : Pending → Pending → Prop) (t : Term) : Prop :=
  ∀ p q, related p q → TakenAlike related (takeToken? t p) (takeToken? t q)

/-- Related lists of items remain so with an item in front, and trees are taken from them alike. -/
structure Coupling (related : Pending → Pending → Prop) : Prop where
  cons : ∀ (i : Item) {p q : Pending}, related p q → related (i :: p) (i :: q)
  takeTree : ∀ (welcome : Tree → Bool) {p q : Pending}, related p q →
    TakenAlike related (takeTree? welcome p) (takeTree? welcome q)

theorem Coupling.restore (h : Coupling related) (ns : List Node) {p q : Pending} (hp : related p q) :
    related (restore ns p) (restore ns q) := by
  induction ns with
  | nil => exact hp
  | cons n ns ih => exact h.cons (.ofMatched n) ih

theorem coupling_eq : Coupling Eq where
  cons := fun _ _ _ h => congrArg _ h
  takeTree := by
    rintro welcome p _ rfl
    exact .refl (fun _ => rfl) _

theorem tokenAlike_eq (t : Term) : TokenAlike Eq t := by
  rintro p _ rfl
  exact .refl (fun _ => rfl) _

end Pending

namespace Attempt

/-- Two attempts that end alike and leave related items pending, unless the first is cut short where it may be. -/
inductive Parallel (related : Pending → Pending → Prop) (mayStop : Prop) : Attempt α → Attempt α → Prop where
  | matched (value : α) {p q : Pending} (h : related p q) :
      Parallel related mayStop (.matched value p) (.matched value q)
  | failed {p q : Pending} (h : related p q) : Parallel related mayStop (.failed p) (.failed q)
  | exhausted : Parallel related mayStop .exhausted .exhausted
  | stopped (h : mayStop) (b : Attempt α) : Parallel related mayStop .exhausted b

variable {related : Pending → Pending → Prop} {mayStop : Prop}

theorem parallel_eq_iff {a b : Attempt α} : a.Parallel Eq mayStop b ↔ (mayStop ∧ a = exhausted) ∨ a = b := by
  constructor
  · rintro (⟨_, rfl⟩ | rfl | _ | ⟨h, _⟩)
    · exact .inr rfl
    · exact .inr rfl
    · exact .inr rfl
    · exact .inl ⟨h, rfl⟩
  · rintro (⟨h, rfl⟩ | rfl)
    · exact .stopped h b
    · cases a with
      | matched value rest => exact .matched value rfl
      | failed rest => exact .failed rfl
      | exhausted => exact .exhausted

theorem Parallel.map {a b : Attempt α} (h : a.Parallel related mayStop b) (f : α → β) :
    (a.map f).Parallel related mayStop (b.map f) := by
  cases h with
  | matched value h => exact .matched (f value) h
  | failed h => exact .failed h
  | exhausted => exact .exhausted
  | stopped h => exact .stopped h _

theorem Parallel.orElse {a b : Attempt α} {next next' : Pending → Attempt α} (h : a.Parallel related mayStop b)
    (hn : ∀ p q, related p q → (next p).Parallel related mayStop (next' q)) :
    (a.orElse next).Parallel related mayStop (b.orElse next') := by
  cases h with
  | matched value h => exact .matched value h
  | failed h => exact hn _ _ h
  | exhausted => exact .exhausted
  | stopped h => exact .stopped h _

theorem Parallel.followedBy {a b : Attempt (List Node)} {next next' : Pending → Attempt (List Node)}
    (hr : Pending.Coupling related) (h : a.Parallel related mayStop b)
    (hn : ∀ p q, related p q → (next p).Parallel related mayStop (next' q)) :
    (a.followedBy next).Parallel related mayStop (b.followedBy next') := by
  cases h with
  | @matched nodes p q h =>
    have hrest := hn p q h
    simp only [Attempt.followedBy]
    generalize next p = c, next' q = d at hrest
    cases hrest with
    | matched more h => exact .matched (nodes ++ more) h
    | failed h => exact .failed (hr.restore nodes h)
    | exhausted => exact .exhausted
    | stopped h => exact .stopped h _
  | failed h => exact .failed h
  | exhausted => exact .exhausted
  | stopped h => exact .stopped h _

end Attempt

section

variable (related : Pending → Pending → Prop) (mayStop : Prop)

/-- From related items, a rule is parsed side by side by two parsers of rules. -/
def RuleParser.ParallelAt (call call' : RuleParser) (name : RuleName) : Prop :=
  ∀ bound p q, related p q → (call name bound p).Parallel related mayStop (call' name bound q)

/-- All that a phrase asks about related items is answered alike. -/
structure Phrase.Coupled (call call' : RuleParser) (e : Phrase) : Prop where
  rules : ∀ name ∈ e.references, call.ParallelAt related mayStop call' name
  terms : ∀ t ∈ e.terms, Pending.TokenAlike related t

end

variable {related : Pending → Pending → Prop} {mayStop : Prop} {call call' : RuleParser} {p q : Pending}

namespace Phrase

theorem coupled_cons {e : Phrase} {es : List Phrase} (h : (sequence (e :: es)).Coupled related mayStop call call') :
    e.Coupled related mayStop call call' ∧ (sequence es).Coupled related mayStop call call' := by
  obtain ⟨hre, hres⟩ := List.forall_mem_append.mp h.rules
  obtain ⟨hte, htes⟩ := List.forall_mem_append.mp h.terms
  exact ⟨⟨hre, hte⟩, ⟨hres, htes⟩⟩

mutual

theorem parallel_parse (hr : Pending.Coupling related) : ∀ (e : Phrase) (bound : Bound) (p q : Pending),
    e.Coupled related mayStop call call' → related p q →
      (e.parse call bound p).Parallel related mayStop (e.parse call' bound q)
  | term t, _, p, q, h, hp => by
    have ht := h.terms t List.mem_cons_self p q hp
    simp only [parse]
    generalize Pending.takeToken? t p = c, Pending.takeToken? t q = d at ht
    cases ht with
    | none => exact .failed hp
    | some s h => exact .matched [Node.terminal s] h
  | rule name, bound, p, q, h, hp => (h.rules name List.mem_cons_self bound p q hp).map _
  | bounded e own, _, p, q, h, hp => parallel_parse hr e own p q ⟨h.rules, h.terms⟩ hp
  | choice es, bound, p, q, h, hp => parallel_parseFirst hr es bound p q ⟨h.rules, h.terms⟩ hp
  | sequence es, bound, p, q, h, hp => parallel_parseEach hr es bound p q h hp

theorem parallel_parseFirst (hr : Pending.Coupling related) : ∀ (es : List Phrase) (bound : Bound) (p q : Pending),
    (sequence es).Coupled related mayStop call call' → related p q →
      (parseFirst call es bound p).Parallel related mayStop (parseFirst call' es bound q)
  | [], _, _, _, _, hp => .failed hp
  | e :: es, bound, p, q, h, hp => by
    obtain ⟨he, hes⟩ := coupled_cons h
    exact (parallel_parse hr e bound p q he hp).orElse fun p q hp => parallel_parseFirst hr es bound p q hes hp

theorem parallel_parseEach (hr : Pending.Coupling related) : ∀ (es : List Phrase) (bound : Bound) (p q : Pending),
    (sequence es).Coupled related mayStop call call' → related p q →
      (parseEach call es bound p).Parallel related mayStop (parseEach call' es bound q)
  | [], _, _, _, _, hp => .matched [] hp
  | e :: es, bound, p, q, h, hp => by
    obtain ⟨he, hes⟩ := coupled_cons h
    exact (parallel_parse hr e bound p q he hp).followedBy hr fun p q hp => parallel_parseEach hr es bound p q hes hp

end

theorem parallel_complete (hr : Pending.Coupling related) :
    ∀ (e : Phrase) (left : Item) (bound : Bound) (p q : Pending), e.Coupled related mayStop call call' → related p q →
      (e.complete call left bound p).Parallel related mayStop (e.complete call' left bound q)
  | term _, .token s, _, _, _, _, hp => .matched [Node.terminal s] hp
  | rule _, .node n, _, _, _, _, hp => .matched [n] hp
  | bounded e own, left, _, p, q, h, hp => parallel_complete hr e left own p q ⟨h.rules, h.terms⟩ hp
  | sequence (e :: es), left, bound, p, q, h, hp => by
    obtain ⟨he, hes⟩ := coupled_cons h
    exact (parallel_complete hr e left bound p q he hp).followedBy hr fun p q hp =>
      parallel_parseEach hr es bound p q hes hp
  | term _, .node n, _, _, _, _, hp => .failed (hr.cons (.node n) hp)
  | rule _, .token s, _, _, _, _, hp => .failed (hr.cons (.token s) hp)
  | choice _, left, _, _, _, _, hp | sequence [], left, _, _, _, _, hp => .failed (hr.cons left hp)

theorem takenAlike_corner? (hr : Pending.Coupling related) (hp : related p q) :
    ∀ e : Phrase, (∀ t ∈ e.terms, Pending.TokenAlike related t) →
      Pending.TakenAlike related (e.corner? p) (e.corner? q)
  | term t, h => (h t List.mem_cons_self p q hp).map Item.token
  | rule _, _ => (hr.takeTree _ hp).map fun t => Item.node t.toNode
  | bounded e _, h => takenAlike_corner? hr hp e h
  | choice _, _ | sequence [], _ => .none
  | sequence (e :: _), h => takenAlike_corner? hr hp e (List.forall_mem_append.mp h).1

end Phrase

namespace Production

theorem parallel_attempt (hr : Pending.Coupling related) {d : Production}
    (h : d.phrase.Coupled related mayStop call call') (hp : related p q) :
    (d.attempt call p).Parallel related mayStop (d.attempt call' q) := by
  have hl := Phrase.takenAlike_corner? hr hp d.phrase h.terms
  unfold attempt
  generalize d.phrase.corner? p = c, d.phrase.corner? q = c' at hl
  cases hl with
  | none => exact .failed hp
  | some left hl => exact (Phrase.parallel_complete hr d.phrase left d.bound _ _ h hl).map _

theorem parallel_attemptFirst (hr : Pending.Coupling related) {ds : List Production}
    (h : ∀ d ∈ ds, d.phrase.Coupled related mayStop call call') (hp : related p q) :
    (attemptFirst call ds p).Parallel related mayStop (attemptFirst call' ds q) := by
  induction ds generalizing p q with
  | nil => exact .failed hp
  | cons d ds ih =>
    obtain ⟨hd, hds⟩ := List.forall_mem_cons.mp h
    exact (parallel_attempt hr hd hp).orElse fun _ _ hp => ih hds hp

/-- Parsers of rules that agree on the rules that productions refer to make the same of them. -/
theorem attemptFirst_congr {ds : List Production}
    (h : ∀ d ∈ ds, ∀ name ∈ d.phrase.references, call name = call' name) (p : Pending) :
    attemptFirst call ds p = attemptFirst call' ds p := by
  have hds : ∀ d ∈ ds, d.phrase.Coupled Eq False call call' := by
    refine fun d hd => ⟨?_, fun t _ => Pending.tokenAlike_eq t⟩
    rintro name hn bound p _ rfl
    exact Attempt.parallel_eq_iff.mpr (.inr (by rw [h d hd name hn]))
  have hp := Attempt.parallel_eq_iff.mp (parallel_attemptFirst Pending.coupling_eq hds (rfl : p = p))
  exact hp.resolve_left fun hs => hs.1

end Production

namespace Grammar

variable {g g' : Grammar} {name : RuleName} {bound : Bound} {n m : Nat}

/-- After reductions that went on side by side, parsing goes on so too. -/
theorem parallel_parse_succ (hr : Pending.Coupling related)
    (h : (g.reduce (g.parse n) name bound p).Parallel related mayStop (g'.reduce (g'.parse m) name bound q))
    (hn : RuleParser.ParallelAt related mayStop (g.parse n) (g'.parse m) name) :
    (g.parse (n + 1) name bound p).Parallel related mayStop (g'.parse (m + 1) name bound q) := by
  simp only [parse]
  generalize g.reduce (g.parse n) name bound p = a, g'.reduce (g'.parse m) name bound q = b at h
  cases h with
  | matched node h => exact hn bound _ _ (hr.cons (.node node) h)
  | @failed p q h =>
    have ht := hr.takeTree (fun t => t.rule == name && bound.admits t.level) h
    dsimp only
    generalize Pending.takeTree? (fun t => t.rule == name && bound.admits t.level) p = c,
      Pending.takeTree? (fun t => t.rule == name && bound.admits t.level) q = d at ht
    cases ht with
    | none => exact .failed h
    | some t h => exact .matched t h
  | exhausted => exact .exhausted
  | stopped h => exact .stopped h _

end Grammar

end LeftCorner
