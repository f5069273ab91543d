import LeftCorner.Proofs.Parallel
import LeftCorner.Proofs.Productions
import Mathlib.Order.Filter.AtTopBot.Basic

/-!
# Runs without an allowance

A larger allowance changes no outcome but that of a run which was cut short. Hence every run has an outcome
that it settles on, which is `exhausted` only if no allowance suffices. The parser that returns these outcomes
parses, reduces and matches by the same equations as one with an allowance, with no count of steps in them.
-/

namespace LeftCorner

open Filter

namespace Attempt

variable {α : Type}

/-- An attempt was cut short or ends as another does. -/
def Approximates (a b : Attempt α) : Prop := a = exhausted ∨ a = b

theorem Approximates.refl (a : Attempt α) : a.Approximates a := .inr rfl

theorem Approximates.trans {a b c : Attempt α} (h : a.Approximates b) (h' : b.Approximates c) :
    a.Approximates c := by
  rcases h with h | rfl
  · exact .inl h
  · exact h'

theorem Approximates.eq {a b : Attempt α} (h : a.Approximates b) (ha : a ≠ exhausted) : a = b :=
  h.resolve_left ha

theorem approximates_iff_parallel {a b : Attempt α} : a.Approximates b ↔ a.Parallel Eq True b := by
  rw [parallel_eq_iff, true_and, Approximates]

end Attempt

/-- One parser of rules is cut short or ends as another does. -/
def RuleParser.Approximates (call call' : RuleParser) : Prop :=
  ∀ name bound p, (call name bound p).Approximates (call' name bound p)

theorem RuleParser.Approximates.coupled {call call' : RuleParser} (hc : call.Approximates call') (e : Phrase) :
    e.Coupled Eq True call call' where
  rules := by
    rintro name - bound p _ rfl
    exact Attempt.approximates_iff_parallel.mp (hc name bound p)
  terms := fun t _ => Pending.tokenAlike_eq t

theorem Production.attempt_approximates {call call' : RuleParser} (hc : call.Approximates call') (d : Production)
    (p : Pending) : (d.attempt call p).Approximates (d.attempt call' p) :=
  Attempt.approximates_iff_parallel.mpr (parallel_attempt Pending.coupling_eq (hc.coupled d.phrase) rfl)

namespace Grammar

theorem parse_approximates_succ (g : Grammar) (n : Nat) :
    RuleParser.Approximates (g.parse n) (g.parse (n + 1)) := by
  induction n with
  | zero => exact fun _ _ _ => .inl rfl
  | succ n ih =>
    intro name bound p
    have hds : ∀ d ∈ g.productions name bound, d.phrase.Coupled Eq True (g.parse n) (g.parse (n + 1)) :=
      fun d _ => ih.coupled d.phrase
    have hn := (ih.coupled (.rule name)).rules name List.mem_cons_self
    have hr := Production.parallel_attemptFirst Pending.coupling_eq hds (rfl : p = p)
    exact Attempt.approximates_iff_parallel.mpr (parallel_parse_succ Pending.coupling_eq hr hn)

/-- A larger allowance gives the same outcome, or the first outcome. -/
theorem parse_approximates (g : Grammar) {n m : Nat} (h : n ≤ m) :
    RuleParser.Approximates (g.parse n) (g.parse m) := by
  induction h with
  | refl => exact fun _ _ _ => .refl _
  | step _ ih => exact fun name bound p => (ih name bound p).trans (g.parse_approximates_succ _ name bound p)

open Classical in
/-- The outcome that a parse has with every allowance that suffices. -/
noncomputable def settled (g : Grammar) : RuleParser := fun name bound p =>
  if h : ∃ n, g.parse n name bound p ≠ .exhausted then g.parse h.choose name bound p else .exhausted

theorem parse_eq_settled {g : Grammar} {n : Nat} {name : RuleName} {bound : Bound} {p : Pending}
    (h : g.parse n name bound p ≠ .exhausted) : g.parse n name bound p = g.settled name bound p := by
  have he : ∃ n, g.parse n name bound p ≠ .exhausted := ⟨n, h⟩
  rw [settled, dif_pos he]
  rcases Nat.le_total n he.choose with hle | hle
  · exact (g.parse_approximates hle name bound p).eq h
  · exact ((g.parse_approximates hle name bound p).eq he.choose_spec).symm

theorem eventually_parse (g : Grammar) (name : RuleName) (bound : Bound) (p : Pending) :
    ∀ᶠ n in atTop, g.parse n name bound p = g.settled name bound p := by
  by_cases h : ∃ n, g.parse n name bound p ≠ .exhausted
  · obtain ⟨n, hn⟩ := h
    filter_upwards [eventually_ge_atTop n] with m hm
    have he := (g.parse_approximates hm name bound p).eq hn
    exact parse_eq_settled (he ▸ hn)
  · rw [settled, dif_neg h]
    exact .of_forall (not_exists_not.mp h)

end Grammar

namespace Attempt

variable {α : Type}

theorem eventually_orElse {a : ℕ → Attempt α} {b : Attempt α} {next : ℕ → Pending → Attempt α}
    {next' : Pending → Attempt α} (ha : ∀ᶠ n in atTop, a n = b)
    (hn : ∀ rest, ∀ᶠ n in atTop, next n rest = next' rest) :
    ∀ᶠ n in atTop, (a n).orElse (next n) = b.orElse next' := by
  cases b with
  | failed rest =>
    filter_upwards [ha, hn rest] with n h h'
    rw [h, orElse_failed, h', orElse_failed]
  | matched _ _ | exhausted =>
    filter_upwards [ha] with n h
    rw [h]
    rfl

theorem eventually_followedBy {a : ℕ → Attempt (List Node)} {b : Attempt (List Node)}
    {next : ℕ → Pending → Attempt (List Node)} {next' : Pending → Attempt (List Node)}
    (ha : ∀ᶠ n in atTop, a n = b) (hn : ∀ rest, ∀ᶠ n in atTop, next n rest = next' rest) :
    ∀ᶠ n in atTop, (a n).followedBy (next n) = b.followedBy next' := by
  cases b with
  | matched nodes rest =>
    filter_upwards [ha, hn rest] with n h h'
    simp only [h, followedBy, h']
  | failed _ | exhausted =>
    filter_upwards [ha] with n h
    rw [h]
    rfl

end Attempt

/-- A sequence of parsers of rules whose outcomes become those of a parser, each in its own time. -/
def RuleParser.Tends (call : ℕ → RuleParser) (limit : RuleParser) : Prop :=
  ∀ name bound p, ∀ᶠ n in atTop, call n name bound p = limit name bound p

namespace Phrase

variable {call : ℕ → RuleParser} {limit : RuleParser}

mutual

theorem eventually_parse (hc : RuleParser.Tends call limit) : ∀ (e : Phrase) (bound : Bound) (p : Pending),
    ∀ᶠ n in atTop, e.parse (call n) bound p = e.parse limit bound p
  | term _, _, _ => .of_forall fun _ => rfl
  | rule name, bound, p => (hc name bound p).mono fun n h => by rw [parse, h, parse]
  | bounded e own, _, p => eventually_parse hc e own p
  | choice es, bound, p => eventually_parseFirst hc es bound p
  | sequence es, bound, p => eventually_parseEach hc es bound p

theorem eventually_parseFirst (hc : RuleParser.Tends call limit) :
    ∀ (es : List Phrase) (bound : Bound) (p : Pending),
      ∀ᶠ n in atTop, parseFirst (call n) es bound p = parseFirst limit es bound p
  | [], _, _ => .of_forall fun _ => rfl
  | e :: es, bound, p => Attempt.eventually_orElse (eventually_parse hc e bound p)
      fun rest => eventually_parseFirst hc es bound rest

theorem eventually_parseEach (hc : RuleParser.Tends call limit) :
    ∀ (es : List Phrase) (bound : Bound) (p : Pending),
      ∀ᶠ n in atTop, parseEach (call n) es bound p = parseEach limit es bound p
  | [], _, _ => .of_forall fun _ => rfl
  | e :: es, bound, p => Attempt.eventually_followedBy (eventually_parse hc e bound p)
      fun rest => eventually_parseEach hc es bound rest

end

theorem eventually_complete (hc : RuleParser.Tends call limit) :
    ∀ (e : Phrase) (left : Item) (bound : Bound) (p : Pending),
      ∀ᶠ n in atTop, e.complete (call n) left bound p = e.complete limit left bound p
  | term _, .token _, _, _ | term _, .node _, _, _ | rule _, .node _, _, _ | rule _, .token _, _, _
  | choice _, _, _, _ | sequence [], _, _, _ => .of_forall fun _ => rfl
  | bounded e own, left, _, p => eventually_complete hc e left own p
  | sequence (e :: es), left, bound, p => Attempt.eventually_followedBy (eventually_complete hc e left bound p)
      fun rest => eventually_parseEach hc es bound rest

end Phrase

namespace Production

variable {call : ℕ → RuleParser} {limit : RuleParser}

theorem eventually_attempt (hc : RuleParser.Tends call limit) (d : Production) (p : Pending) :
    ∀ᶠ n in atTop, d.attempt (call n) p = d.attempt limit p := by
  unfold attempt
  split
  next => exact .of_forall fun _ => rfl
  next left rest _ =>
    filter_upwards [Phrase.eventually_complete hc d.phrase left d.bound rest] with n h
    rw [h]

theorem eventually_attemptFirst (hc : RuleParser.Tends call limit) (ds : List Production) (p : Pending) :
    ∀ᶠ n in atTop, attemptFirst (call n) ds p = attemptFirst limit ds p := by
  induction ds generalizing p with
  | nil => exact .of_forall fun _ => rfl
  | cons d ds ih => exact Attempt.eventually_orElse (eventually_attempt hc d p) ih

end Production

namespace Grammar

variable {g : Grammar} {target name : RuleName} {bound : Bound} {p rest : Pending}

theorem tends_settled (g : Grammar) : RuleParser.Tends g.parse g.settled := g.eventually_parse

/-- After a reduction, parsing goes on with the node in front. -/
theorem settled_of_matched {node : Node} (h : g.reduce g.settled name bound p = .matched node rest) :
    g.settled name bound p = g.settled name bound (.node node :: rest) := by
  have hr := Production.eventually_attemptFirst g.tends_settled (g.productions name bound) p
  have hp := (tendsto_add_atTop_nat 1).eventually (g.eventually_parse name bound p)
  obtain ⟨n, hr, hp, hn⟩ := (hr.and (hp.and (g.eventually_parse name bound (.node node :: rest)))).exists
  rw [← hp, ← hn, parse, reduce, hr, ← reduce, h]

/-- When no reduction is left, the front is taken if it is a welcome tree. -/
theorem settled_of_failed {t : Tree} {q : Pending} (h : g.reduce g.settled name bound p = .failed rest)
    (ht : rest.takeTree? (fun t => t.rule == name && bound.admits t.level) = some (t, q)) :
    g.settled name bound p = .matched t q := by
  have hr := Production.eventually_attemptFirst g.tends_settled (g.productions name bound) p
  have hp := (tendsto_add_atTop_nat 1).eventually (g.eventually_parse name bound p)
  obtain ⟨n, hr, hp⟩ := (hr.and hp).exists
  rw [← hp, parse, reduce, hr, ← reduce]
  simp only [h, ht]

/-- When no reduction is left and the front is no welcome tree, parsing fails. -/
theorem settled_of_untaken (h : g.reduce g.settled name bound p = .failed rest)
    (ht : rest.takeTree? (fun t => t.rule == name && bound.admits t.level) = none) :
    g.settled name bound p = .failed rest := by
  have hr := Production.eventually_attemptFirst g.tends_settled (g.productions name bound) p
  have hp := (tendsto_add_atTop_nat 1).eventually (g.eventually_parse name bound p)
  obtain ⟨n, hr, hp⟩ := (hr.and hp).exists
  rw [← hp, parse, reduce, hr, ← reduce]
  simp only [h, ht]

theorem settled_of_production {d : Production} {node : Node} (hd : d ∈ g.productions name bound)
    (hm : d.attempt g.settled p = .matched node rest)
    (h : ∀ d ∈ g.productions name bound,
      d.attempt g.settled p = .failed p ∨ d.attempt g.settled p = .matched node rest) :
    g.settled name bound p = g.settled name bound (.node node :: rest) :=
  settled_of_matched (Production.attemptFirst_of_matched hd hm h)

theorem settled_of_no_production {t : Tree} {q : Pending}
    (h : ∀ d ∈ g.productions name bound, d.attempt g.settled (.node t.toNode :: q) = .failed (.node t.toNode :: q))
    (ht : t.rule = name) (hb : bound.admits t.level) :
    g.settled name bound (.node t.toNode :: q) = .matched t q := by
  refine settled_of_failed (Production.attemptFirst_of_failed h) (Pending.takeTree?_eq_some.mpr ⟨rfl, ?_⟩)
  rw [ht, hb, Bool.and_true]
  exact beq_self_eq_true name

end Grammar

end LeftCorner
