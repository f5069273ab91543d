import LeftCorner.Proofs.RuleFree

/-!
# Phrases that begin with a term

A reduction does not parse a phrase as a whole. It takes the left corner of one of its variants and completes what stands
behind. Where no rules are named, this comes to the same as parsing if the variant begins with a term, however deep in
sequences and under bounds the term stands. A sequence that begins with a choice or with nothing at all has no left
corner, so it can be parsed but is never reduced; only the choice at the top of a phrase is resolved into variants.
-/

namespace LeftCorner

namespace Phrase

/-- The left corner of the phrase is that of a term. -/
def beginsWithTerm : Phrase → Bool
  | term _ => true
  | bounded e _ | sequence (e :: _) => beginsWithTerm e
  | rule _ | choice _ | sequence [] => false

/-- The variants of a phrase, without the bounds in force for them. -/
def options (e : Phrase) (bound : Bound) : List Phrase := (e.variants bound).map Prod.fst

/-- The variants that begin with a term, in order. -/
def leading (e : Phrase) (bound : Bound) : List Phrase := (e.options bound).filter beginsWithTerm

variable {call : RuleParser}

/-- A phrase that begins with a term is parsed by taking its left corner and completing it. -/
theorem parse_eq_complete : ∀ {e : Phrase}, e.beginsWithTerm → ∀ (bound : Bound) (p : Pending),
    e.parse call bound p = match e.corner? p with
      | none => .failed p
      | some (left, rest) => e.complete call left bound rest
  | term t, _, _, p => by
    rw [parse, corner?]
    cases p.takeToken? t <;> rfl
  | bounded e own, h, _, p => parse_eq_complete (e := e) h own p
  | sequence (e :: es), h, bound, p => by
    rw [parse, parseEach, parse_eq_complete (e := e) h, corner?]
    cases e.corner? p <;> rfl

/-- Without rules, only what begins with a term has a left corner. -/
theorem RuleFree.corner?_eq_none : ∀ {e : Phrase}, e.RuleFree → ¬ e.beginsWithTerm → ∀ p, e.corner? p = none
  | .term _, _, hb, _ => absurd rfl hb
  | .bounded e _, h, hb, p => by
    cases h with
    | bounded h => exact h.corner?_eq_none hb p
  | .choice _, _, _, _ => rfl
  | .sequence [], _, _, _ => rfl
  | .sequence (e :: _), h, hb, p => by
    cases h with
    | sequence h => exact (h e List.mem_cons_self).corner?_eq_none hb p

theorem RuleFree.of_mem_options {e f : Phrase} {bound : Bound} (h : e.RuleFree) (hf : f ∈ e.options bound) :
    f.RuleFree := by
  obtain ⟨v, hv, rfl⟩ := List.mem_map.mp hf
  have hs : v.1.references ⊆ [] := ruleFree_iff.mp h ▸ references_subset_of_variant hv
  exact ruleFree_iff.mpr (List.subset_nil.mp hs)

theorem readFirst?_append {es fs : List Phrase} {p : Pending} :
    readFirst? (es ++ fs) p = (readFirst? es p).or (readFirst? fs p) := by
  induction es with
  | nil => rfl
  | cons e es ih => rw [List.cons_append, readFirst?, ih, readFirst?, Option.or_assoc]

mutual

/-- A phrase reads what the first of its variants reads. -/
theorem read?_eq_readFirst? (bound : Bound) (p : Pending) : ∀ e : Phrase,
    e.read? p = readFirst? (e.options bound) p
  | term t | rule _ | sequence _ => by simp [options, variants, readFirst?]
  | bounded e own => read?_eq_readFirst? own p e
  | choice es => readFirst?_eq_variants bound p es

theorem readFirst?_eq_variants (bound : Bound) (p : Pending) : ∀ es : List Phrase,
    readFirst? es p = readFirst? ((variantsOfEach bound es).map Prod.fst) p
  | [] => rfl
  | e :: es => by
    rw [readFirst?, variantsOfEach, List.map_append, readFirst?_append, ← readFirst?_eq_variants bound p es,
      read?_eq_readFirst? bound p e, options]

end

theorem RuleFree.parse_eq_parseFirst {e : Phrase} (h : e.RuleFree) (bound : Bound) (p : Pending) :
    e.parse call bound p = parseFirst call (e.options bound) bound p := by
  rw [h.parse_eq, read?_eq_readFirst? bound, parseFirst_eq fun f hf => h.of_mem_options hf]

section

variable {es before after : List Phrase} {f : Phrase} {bound : Bound} {p : Pending}

/-- Options that fail and change nothing may as well not be tried. -/
theorem parseFirst_append_of_failed (h : ∀ e ∈ before, e.parse call bound p = .failed p) :
    parseFirst call (before ++ es) bound p = parseFirst call es bound p := by
  induction before with
  | nil => rfl
  | cons e before ih =>
    obtain ⟨he, hb⟩ := List.forall_mem_cons.mp h
    rw [List.cons_append, parseFirst, he, Attempt.orElse_failed, ih hb]

theorem parseFirst_of_failed (h : ∀ e ∈ es, e.parse call bound p = .failed p) :
    parseFirst call es bound p = .failed p := by
  have ha : parseFirst call (es ++ []) bound p = .failed p := parseFirst_append_of_failed h
  rwa [List.append_nil] at ha

theorem parseFirst_of_first (hb : ∀ e ∈ before, e.parse call bound p = .failed p)
    (hf : ∀ rest, f.parse call bound p ≠ .failed rest) :
    parseFirst call (before ++ f :: after) bound p = f.parse call bound p := by
  rw [parseFirst_append_of_failed hb, parseFirst]
  cases h : f.parse call bound p with
  | failed rest => exact absurd h (hf rest)
  | matched _ _ | exhausted => rfl

/-- Where failures change nothing, all options fail, or there is a first that does not. -/
theorem all_failed_or_first (hes : ∀ e ∈ es, ∀ rest, e.parse call bound p = .failed rest → rest = p) :
    (∀ e ∈ es, e.parse call bound p = .failed p) ∨
      ∃ before f after, es = before ++ f :: after ∧ (∀ e ∈ before, e.parse call bound p = .failed p) ∧
        ∀ rest, f.parse call bound p ≠ .failed rest := by
  induction es with
  | nil => exact .inl (by simp)
  | cons e es ih =>
    obtain ⟨hback, hes⟩ := List.forall_mem_cons.mp hes
    by_cases he : ∃ rest, e.parse call bound p = .failed rest
    · obtain ⟨rest, he⟩ := he
      rw [hback rest he] at he
      rcases ih hes with hall | ⟨before, f, after, rfl, hb, hf⟩
      · exact .inl (List.forall_mem_cons.mpr ⟨he, hall⟩)
      · exact .inr ⟨e :: before, f, after, rfl, List.forall_mem_cons.mpr ⟨he, hb⟩, hf⟩
    · exact .inr ⟨[], e, es, rfl, by simp, not_exists.mp he⟩

end

end Phrase

namespace Production

variable {call : RuleParser} {d : Production}

theorem attempt_eq_parse (h : d.phrase.beginsWithTerm) (p : Pending) :
    d.attempt call p = (d.phrase.parse call d.bound p).map (d.build d.rule d.level) := by
  rw [attempt, Phrase.parse_eq_complete h]
  cases d.phrase.corner? p <;> rfl

end Production

/-- If it names no rule, an alternative is reduced as the choice of its variants that begin with a term is parsed. -/
theorem Alternative.attemptFirst_productions {a : Alternative} (h : a.phrase.RuleFree) (bound : Bound) (rule : RuleName)
    (call : RuleParser) (p : Pending) : Production.attemptFirst call (a.productions bound rule) p =
      (Phrase.parseFirst call (a.phrase.leading bound) bound p).map (a.build rule a.level) := by
  have hall : ∀ v ∈ a.phrase.variants bound, v.1.RuleFree :=
    fun v hv => h.of_mem_options (List.mem_map_of_mem hv)
  rw [productions, Phrase.leading, Phrase.options]
  generalize a.phrase.variants bound = vs at hall
  induction vs generalizing p with
  | nil => rfl
  | cons v vs ih =>
    obtain ⟨hv, hvs⟩ := List.forall_mem_cons.mp hall
    rw [List.map_cons, List.map_cons, Production.attemptFirst]
    by_cases hb : v.1.beginsWithTerm
    · rw [Production.attempt_eq_parse hb, List.filter_cons_of_pos hb, Phrase.parseFirst, Attempt.map_orElse]
      -- The variant has a bound of its own in force, but without rules this makes no difference.
      rw [hv.parse_eq, hv.parse_eq]
      exact congrArg _ (funext fun rest => ih rest hvs)
    · rw [Production.attempt_of_corner?_eq_none (hv.corner?_eq_none hb p), List.filter_cons_of_neg hb,
        Attempt.orElse_failed]
      exact ih p hvs

namespace Grammar

/-- The only alternative of a grammar has all productions for its rule. -/
theorem productions_ofDefinitions_singleton (name : String) (rule : RuleName) {a : Alternative} {bound : Bound}
    (h : bound.admits a.level) :
    (ofDefinitions name [⟨rule, a⟩]).productions rule bound = a.productions bound rule := by
  have hcorner : (ofDefinitions name [⟨rule, a⟩]).IsCorner rule rule :=
    isCorner_ofDefinitions (d := ⟨rule, a⟩) List.mem_cons_self (.inl rfl)
  obtain ⟨names, hn, hr⟩ := hcorner
  have hrules : (ofDefinitions name [⟨rule, a⟩]).rules = [(rule, [a])] := rfl
  rw [productions, hn, hrules]
  simp [hr, h]

/-- In a grammar of one alternative that names no rule, a reduction does what parsing does for the choice of those
variants that begin with a term. What parsing the whole phrase matches is matched by the first variant that can, and if
this one begins with a term, it is reduced. If parsing fails, so does the reduction, and nothing is changed. -/
theorem reduce_eq_parse_leading (name : String) (rule : RuleName) {level : Level} {e : Phrase} {bound : Bound}
    (he : e.RuleFree) (hl : bound.admits level) (call : RuleParser) (p : Pending) :
    let g : Grammar := ofDefinitions name [⟨rule, .plain level e⟩]
    g.reduce call rule bound p = ((Phrase.choice (e.leading bound)).parse call bound p).map (.tree rule level) ∧
      (∀ nodes rest, e.parse call bound p = .matched nodes rest → ∃ before f after,
        e.options bound = before ++ f :: after ∧ (∀ f' ∈ before, f'.parse call bound p = .failed p) ∧
          f.parse call bound p = .matched nodes rest ∧
          (f.beginsWithTerm → g.reduce call rule bound p = .matched (.tree rule level nodes) rest)) ∧
      ∀ rest, e.parse call bound p = .failed rest → g.reduce call rule bound p = .failed p := by
  intro g
  have hreduce : g.reduce call rule bound p =
      ((Phrase.choice (e.leading bound)).parse call bound p).map (.tree rule level) := by
    rw [reduce, productions_ofDefinitions_singleton name rule hl]
    exact Alternative.attemptFirst_productions he bound rule call p
  have hback : ∀ f ∈ e.options bound, ∀ rest, f.parse call bound p = .failed rest → rest = p := by
    intro f hf rest h
    have ht : (f.parse call bound p).TakesTokens p := Phrase.takesTokens_parse f bound p (he.of_mem_options hf)
    rwa [h] at ht
  rw [he.parse_eq_parseFirst]
  rcases Phrase.all_failed_or_first hback with hall | ⟨before, f, after, ho, hb, hf⟩
  · have hnone : ∀ f ∈ e.leading bound, f.parse call bound p = .failed p :=
      fun f hf => hall f (List.mem_of_mem_filter hf)
    rw [hreduce, Phrase.parse, Phrase.parseFirst_of_failed hnone, Phrase.parseFirst_of_failed hall]
    exact ⟨rfl, nofun, fun _ _ => rfl⟩
  · rw [ho, Phrase.parseFirst_of_first hb hf]
    refine ⟨hreduce, fun nodes rest h => ⟨before, f, after, rfl, hb, h, fun hterm => ?_⟩, ?_⟩
    · have hleading : e.leading bound =
          before.filter Phrase.beginsWithTerm ++ f :: after.filter Phrase.beginsWithTerm := by
        rw [Phrase.leading, ho, List.filter_append, List.filter_cons_of_pos hterm]
      have hb' : ∀ f' ∈ before.filter Phrase.beginsWithTerm, f'.parse call bound p = .failed p :=
        fun f' hf' => hb f' (List.mem_of_mem_filter hf')
      rw [hreduce, Phrase.parse, hleading, Phrase.parseFirst_of_first hb' hf, h]
      rfl
    · exact fun rest h => absurd h (hf rest)

/-- Both variants begin with a term. The choice in the first stands behind its left corner. -/
theorem words_reduce_eq_parse_leading :
    let e : Phrase := "a" + ("b" ||| "c") ||| "b"
    let g : Grammar := ofDefinitions "words" [⟨"word", .plain 0 e⟩]
    let p : Pending := .ofTokens ["a", "c"] Pending.endMarker
    let nodes : List Node := [.terminal "a", .terminal "c"]
    e.RuleFree ∧ Bound.standard.admits 0 ∧ e.parse (g.parse 9) .standard p = .matched nodes [.token "$"] ∧
      g.reduce (g.parse 9) "word" .standard p = .matched (.tree "word" 0 nodes) [.token "$"] := by
  intro e g p nodes
  have he : e.RuleFree := by decide
  have hl : Bound.standard.admits 0 := rfl
  have hp : e.parse (g.parse 9) .standard p = .matched nodes [.token "$"] := rfl
  have hterm : ∀ f ∈ e.options .standard, f.beginsWithTerm := by decide
  obtain ⟨-, hmatched, -⟩ := reduce_eq_parse_leading "words" "word" he hl (g.parse 9) p
  obtain ⟨before, f, after, ho, -, -, hr⟩ := hmatched _ _ hp
  exact ⟨he, hl, hp, hr (hterm f (ho ▸ by simp))⟩

/-- The only variant begins with a choice. It can be parsed, but it has no left corner and is not reduced. -/
theorem words_choice_not_reduced :
    let e : Phrase := ("a" ||| "b") + "c"
    let g : Grammar := ofDefinitions "words" [⟨"word", .plain 0 e⟩]
    let p : Pending := .ofTokens ["a", "c"] Pending.endMarker
    e.RuleFree ∧ Bound.standard.admits 0 ∧
      e.parse (g.parse 9) .standard p = .matched [.terminal "a", .terminal "c"] [.token "$"] ∧
      g.reduce (g.parse 9) "word" .standard p = .failed p := by
  intro e g p
  exact ⟨by decide, rfl, rfl, rfl⟩

end Grammar

end LeftCorner
