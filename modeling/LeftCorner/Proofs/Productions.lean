import LeftCorner.Arithmetic
import LeftCorner.Proofs.Definitions

/-!
# Which productions a target has

The productions for a target come from the alternatives of its corners whose level the bound admits. A list
of productions that all fail keeps what each of them keeps; and where all that fail leave the pending items as
they were, it ends as the only one that matches.
-/

namespace LeftCorner

namespace RuleTable

def Offers (rules : RuleTable) (rule : RuleName) (a : Alternative) : Prop :=
  ∃ alternatives, (rule, alternatives) ∈ rules ∧ a ∈ alternatives

theorem mem_lookup_of_offers {rules : RuleTable} {rule : RuleName} {a : Alternative}
    (hn : rules.names.Nodup) (h : rules.Offers rule a) : a ∈ (rules.lookup rule).getD [] := by
  obtain ⟨alternatives, hm, ha⟩ := h
  rw [eq_map_lookup hn] at hm
  obtain ⟨own, -, he⟩ := List.mem_map.mp hm
  cases he
  exact ha

end RuleTable

/-- A production of an alternative has its level and its constructor, and one of its variants. -/
theorem Alternative.mem_productions {a : Alternative} {bound : Bound} {rule : RuleName} {d : Production} :
    d ∈ a.productions bound rule ↔ d.rule = rule ∧ d.level = a.level ∧ d.build = a.build ∧
      (d.phrase, d.bound) ∈ a.phrase.variants bound := by
  constructor
  · intro h
    obtain ⟨v, hv, rfl⟩ := List.mem_map.mp h
    exact ⟨rfl, rfl, rfl, hv⟩
  · intro h
    obtain ⟨rule', level, build, e, own⟩ := d
    obtain ⟨rfl, rfl, rfl, hv⟩ := h
    exact List.mem_map.mpr ⟨(e, own), hv, rfl⟩

namespace Grammar

def Offers (g : Grammar) (rule : RuleName) (a : Alternative) : Prop := g.rules.Offers rule a

/-- A grammar made from definitions has the alternatives that were defined. -/
theorem offers_ofDefinitions {name : String} {ds : List Definition} {rule : RuleName} {a : Alternative} :
    (ofDefinitions name ds).Offers rule a ↔ ⟨rule, a⟩ ∈ ds := by
  rw [Offers, RuleTable.Offers, rules_ofDefinitions]
  constructor
  · intro h
    obtain ⟨alternatives, hm, ha⟩ := h
    obtain ⟨own, -, he⟩ := List.mem_map.mp hm
    cases he
    exact Definition.mem_alternatives.mp ha
  · intro h
    have hn : rule ∈ Definition.names ds := Definition.mem_names.mpr ⟨_, h, rfl⟩
    exact ⟨_, List.mem_map.mpr ⟨rule, hn, rfl⟩, Definition.mem_alternatives.mpr h⟩

/-- All alternatives build trees over what they matched. -/
def IsPlain (g : Grammar) : Prop := ∀ rule a, g.Offers rule a → a.build = Constructor.tree

theorem isPlain_ofDefinitions {name : String} {ds : List Definition}
    (h : ∀ d ∈ ds, d.alternative.build = Constructor.tree) : (ofDefinitions name ds).IsPlain := by
  intro rule a ha
  exact h ⟨rule, a⟩ (offers_ofDefinitions.mp ha)

/-- Numbers, and two of them with a comma between. -/
def pairs : Grammar := ofDefinitions "pairs" [
  ⟨"item", .plain 0 (.term (.pattern Arithmetic.number))⟩,
  ⟨"pair", .plain 1 (.rule "item" + "," + .rule "item")⟩]

theorem isPlain_pairs : pairs.IsPlain := isPlain_ofDefinitions (by simp [Alternative.plain])

/-- A rule that can start what a target expands to. -/
def IsCorner (g : Grammar) (target corner : RuleName) : Prop :=
  ∃ names, g.corners? target = some names ∧ corner ∈ names

/-- The rules that can stand leftmost in a corner are corners. -/
theorem IsCorner.leftmost {g : Grammar} {target rule corner : RuleName} (h : g.IsCorner target rule)
    (hc : corner ∈ g.rules.leftmost rule) : g.IsCorner target corner := by
  obtain ⟨names, hn, hr⟩ := h
  refine ⟨names, hn, ?_⟩
  rw [corners?_eq] at hn
  split at hn
  next =>
    cases hn
    exact g.rules.closed_cornersFrom target rule hr hc
  next => cases hn

theorem Offers.mem_names {g : Grammar} {rule : RuleName} {a : Alternative} (ha : g.Offers rule a) :
    rule ∈ g.rules.names := by
  obtain ⟨alternatives, hr, -⟩ := ha
  exact List.mem_map_of_mem hr

theorem mem_names_ofDefinitions {name : String} {ds : List Definition} {d : Definition} (hd : d ∈ ds) :
    d.rule ∈ (ofDefinitions name ds).rules.names := by
  rw [names_ofDefinitions]
  exact Definition.mem_names.mpr ⟨d, hd, rfl⟩

/-- The rule of a definition has itself for a corner, and all that can stand leftmost in its phrase. -/
theorem isCorner_ofDefinitions {name : String} {ds : List Definition} {d : Definition} {corner : RuleName}
    (hd : d ∈ ds) (hc : corner = d.rule ∨ corner ∈ d.alternative.phrase.leftmost) :
    (ofDefinitions name ds).IsCorner d.rule corner := by
  have hn : d.rule ∈ (ofDefinitions name ds).rules.names := mem_names_ofDefinitions hd
  refine ⟨_, by rw [corners?_eq, if_pos hn], ?_⟩
  rcases hc with rfl | hc
  · exact RuleTable.self_mem_cornersFrom _ _
  · apply RuleTable.leftmost_subset_cornersFrom
    exact mem_leftmost_ofDefinitions.mpr ⟨d, hd, rfl, hc⟩

/-- A production for a target stems from an alternative of a corner. -/
theorem mem_productions {g : Grammar} {target : RuleName} {bound : Bound} {d : Production} :
    d ∈ g.productions target bound ↔ g.IsCorner target d.rule ∧
      ∃ a, g.Offers d.rule a ∧ bound.admits a.level ∧ d ∈ a.productions bound d.rule := by
  unfold productions IsCorner
  cases g.corners? target with
  | none => simp
  | some names =>
    simp only [List.mem_flatMap, List.mem_filter, Option.some.injEq, exists_eq_left']
    constructor
    · intro h
      obtain ⟨⟨rule, alternatives⟩, ⟨hr, hn⟩, a, ⟨ha, hb⟩, hd⟩ := h
      obtain ⟨v, hv, rfl⟩ := List.mem_map.mp hd
      exact ⟨by simpa using hn, a, ⟨alternatives, hr, ha⟩, hb, hd⟩
    · intro h
      obtain ⟨hn, a, ⟨alternatives, hr, ha⟩, hb, hd⟩ := h
      exact ⟨(d.rule, alternatives), ⟨hr, by simpa using hn⟩, a, ⟨ha, hb⟩, hd⟩

/-- A variant of a defined alternative is a production for each target that its rule can start. -/
theorem mem_productions_ofDefinitions {name : String} {ds : List Definition} {rule target : RuleName}
    {a : Alternative} {bound : Bound} {v : Phrase × Bound} (hd : ⟨rule, a⟩ ∈ ds)
    (hc : (ofDefinitions name ds).IsCorner target rule) (hb : bound.admits a.level)
    (hv : v ∈ a.phrase.variants bound) :
    ⟨rule, a.level, a.build, v.1, v.2⟩ ∈ (ofDefinitions name ds).productions target bound :=
  mem_productions.mpr ⟨hc, a, offers_ofDefinitions.mpr hd, hb, List.mem_map.mpr ⟨v, hv, rfl⟩⟩

end Grammar

namespace Production

variable {call : RuleParser}

theorem attempt_nil (call : RuleParser) (d : Production) : d.attempt call [] = .failed [] := by
  cases h : d.phrase.corner? [] with
  | none => rw [attempt, h]
  | some c => exact absurd (Phrase.corner?_eq_some h).1 (List.cons_ne_nil _ _).symm

theorem attemptFirst_nil (call : RuleParser) (ds : List Production) :
    attemptFirst call ds [] = .failed [] := by
  induction ds with
  | nil => rfl
  | cons d ds ih => rw [attemptFirst, attempt_nil, Attempt.orElse_failed, ih]

theorem attempt_of_corner?_eq_none {d : Production} {p : Pending} (h : d.phrase.corner? p = none) :
    d.attempt call p = .failed p := by
  rw [attempt, h]

theorem attempt_of_matched {d : Production} {p rest rest' : Pending} {left : Item} {nodes : List Node}
    (hl : d.phrase.corner? p = some (left, rest))
    (hc : d.phrase.complete call left d.bound rest = .matched nodes rest') :
    d.attempt call p = .matched (d.build d.rule d.level nodes) rest' := by
  simp only [attempt, hl, hc, Attempt.map_matched]

theorem attempt_of_failed {d : Production} {p rest rest' : Pending} {left : Item}
    (hl : d.phrase.corner? p = some (left, rest))
    (hc : d.phrase.complete call left d.bound rest = .failed rest') : d.attempt call p = .failed rest' := by
  simp only [attempt, hl, hc, Attempt.map_failed]

/-- If all productions fail on what a condition holds of, and keep it, then so does the list of them. -/
theorem attemptFirst_of_keeps {ds : List Production} {inv : Pending → Prop}
    (h : ∀ d ∈ ds, ∀ p, inv p → ∃ rest, d.attempt call p = .failed rest ∧ inv rest) {p : Pending} (hp : inv p) :
    ∃ rest, attemptFirst call ds p = .failed rest ∧ inv rest := by
  induction ds generalizing p with
  | nil => exact ⟨p, rfl, hp⟩
  | cons d ds ih =>
    obtain ⟨rest, hd, hrest⟩ := h d List.mem_cons_self p hp
    rw [attemptFirst, hd, Attempt.orElse_failed]
    exact ih (fun d hd => h d (List.mem_cons_of_mem _ hd)) hrest

theorem attemptFirst_of_failed {ds : List Production} {p : Pending}
    (h : ∀ d ∈ ds, d.attempt call p = .failed p) : attemptFirst call ds p = .failed p := by
  have hkeeps : ∀ d ∈ ds, ∀ q, q = p → ∃ rest, d.attempt call q = .failed rest ∧ rest = p := by
    rintro d hd q rfl
    exact ⟨q, h d hd, rfl⟩
  obtain ⟨rest, hr, rfl⟩ := attemptFirst_of_keeps hkeeps rfl
  exact hr

theorem attemptFirst_of_matched {ds : List Production} {d : Production} {p rest : Pending} {node : Node}
    (hd : d ∈ ds) (hm : d.attempt call p = .matched node rest)
    (h : ∀ d ∈ ds, d.attempt call p = .failed p ∨ d.attempt call p = .matched node rest) :
    attemptFirst call ds p = .matched node rest := by
  induction ds with
  | nil => cases hd
  | cons e ds ih =>
    rw [attemptFirst]
    rcases h e List.mem_cons_self with he | he
    · rw [he, Attempt.orElse_failed]
      rcases List.mem_cons.mp hd with rfl | hd
      · rw [hm] at he
        cases he
      · exact ih hd fun d hd => h d (List.mem_cons_of_mem _ hd)
    · rw [he, Attempt.orElse_matched]

end Production

end LeftCorner
