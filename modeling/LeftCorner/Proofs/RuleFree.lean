import LeftCorner.Proofs.Reductions
import LeftCorner.Proofs.References

/-!
# Phrases without rules

A phrase that names no rule asks for no reduction, so neither what parses the rules nor the bound in force makes a
difference to it. It is an ordered choice among raw tokens. A term reads one token off the front, the elements of a
sequence read one after another, and of a choice the first option that can read is taken and no other is tried later.

Such a phrase is parsed by taking tokens and putting them back, which comes to the same: the tokens that are read become
terminals, and if nothing can be read all is as it was. A phrase that names a rule at its left corner alone also leaves
all as it was if it cannot be completed.
-/

namespace LeftCorner

namespace Attempt

/-- The attempt that a reading makes. What was read is matched as terminals, and a failure changes nothing. -/
def ofReading (p : Pending) : Option (List String × Pending) → Attempt (List Node)
  | some (tokens, rest) => matched (tokens.map .terminal) rest
  | none => failed p

/-- A match has taken raw tokens off the front, and a failure nothing. -/
def TakesTokens (p : Pending) : Attempt (List Node) → Prop :=
  Meets (fun nodes rest => ∃ tokens : List String, nodes = tokens.map Node.terminal ∧ p = tokens.map Item.token ++ rest)
    (fun rest => rest = p) False

theorem restore_terminals (tokens : List String) (p : Pending) :
    Pending.restore (tokens.map .terminal) p = tokens.map .token ++ p := by
  simp [Pending.restore, Item.ofMatched]

end Attempt

namespace Phrase

/-- A phrase that names no rule. -/
inductive RuleFree : Phrase → Prop where
  | term {t} : RuleFree (term t)
  | bounded {e bound} (h : RuleFree e) : RuleFree (bounded e bound)
  | choice {es} (h : ∀ e ∈ es, RuleFree e) : RuleFree (choice es)
  | sequence {es} (h : ∀ e ∈ es, RuleFree e) : RuleFree (sequence es)

mutual

theorem ruleFree_iff : ∀ {e : Phrase}, e.RuleFree ↔ e.references = []
  | term _ => ⟨fun _ => rfl, fun _ => .term⟩
  | rule name => by
    constructor
    · intro h
      cases h
    · intro h
      cases h
  | bounded e _ => by
    rw [references, ← ruleFree_iff]
    exact ⟨fun | .bounded h => h, .bounded⟩
  | choice es => by
    rw [references, ← ruleFreeEach_iff]
    exact ⟨fun | .choice h => h, .choice⟩
  | sequence es => by
    rw [references, ← ruleFreeEach_iff]
    exact ⟨fun | .sequence h => h, .sequence⟩

theorem ruleFreeEach_iff : ∀ {es : List Phrase}, (∀ e ∈ es, e.RuleFree) ↔ referencesOfEach es = []
  | [] => by simp [referencesOfEach]
  | e :: es => by
    rw [List.forall_mem_cons, referencesOfEach, List.append_eq_nil_iff, ruleFree_iff, ruleFreeEach_iff]

end

instance (e : Phrase) : Decidable e.RuleFree := decidable_of_iff _ ruleFree_iff.symm

/-- A phrase that names no rule but at its left corner. -/
inductive RuleFreeBehind : Phrase → Prop where
  | term {t} : RuleFreeBehind (term t)
  | rule {name} : RuleFreeBehind (rule name)
  | bounded {e bound} (h : RuleFreeBehind e) : RuleFreeBehind (bounded e bound)
  | choice {es} (h : ∀ e ∈ es, RuleFreeBehind e) : RuleFreeBehind (choice es)
  | nothing : RuleFreeBehind (sequence [])
  | sequence {e es} (h : RuleFreeBehind e) (hs : ∀ f ∈ es, RuleFree f) : RuleFreeBehind (sequence (e :: es))

mutual

/-- The tokens that a phrase without rules reads off the front, and what is pending behind them. -/
def read? : Phrase → Pending → Option (List String × Pending)
  | term t, .token s :: p => if t.accepts s then some ([s], p) else none
  | term _, _ => none
  | rule _, _ => none
  | bounded e _, p => e.read? p
  | choice es, p => readFirst? es p
  | sequence es, p => readEach? es p

def readFirst? : List Phrase → Pending → Option (List String × Pending)
  | [], _ => none
  | e :: es, p => (e.read? p).or (readFirst? es p)

def readEach? : List Phrase → Pending → Option (List String × Pending)
  | [], p => some ([], p)
  | e :: es, p =>
    match e.read? p with
    | some (tokens, rest) => (readEach? es rest).map fun (more, rest) => (tokens ++ more, rest)
    | none => none

end

mutual

/-- What is read are raw tokens from the front. A node is never read. -/
theorem eq_append_of_read? : ∀ {e : Phrase} {p rest : Pending} {tokens : List String},
    e.read? p = some (tokens, rest) → p = tokens.map .token ++ rest
  | term t, .token s :: p, _, _, h => by
    rw [read?] at h
    split at h
    · cases h
      rfl
    · cases h
  | bounded e _, _, _, _, h => eq_append_of_read? (e := e) h
  | choice es, _, _, _, h => eq_append_of_readFirst? h
  | sequence es, _, _, _, h => eq_append_of_readEach? h

theorem eq_append_of_readFirst? : ∀ {es : List Phrase} {p rest : Pending} {tokens : List String},
    readFirst? es p = some (tokens, rest) → p = tokens.map .token ++ rest
  | e :: es, _, _, _, h => by
    rcases Option.or_eq_some_iff.mp h with h | ⟨-, h⟩
    · exact eq_append_of_read? h
    · exact eq_append_of_readFirst? h

theorem eq_append_of_readEach? : ∀ {es : List Phrase} {p rest : Pending} {tokens : List String},
    readEach? es p = some (tokens, rest) → p = tokens.map .token ++ rest
  | [], _, _, _, h => by
    cases h
    rfl
  | e :: es, p, _, _, h => by
    rw [readEach?] at h
    split at h
    next first behind hr =>
      obtain ⟨⟨more, last⟩, hs, he⟩ := Option.map_eq_some_iff.mp h
      cases he
      rw [eq_append_of_read? hr, eq_append_of_readEach? hs, List.map_append, List.append_assoc]
    next => cases h

end

variable {call : RuleParser}

mutual

/-- A phrase without rules is parsed as it reads. -/
theorem RuleFree.parse_eq : ∀ {e : Phrase}, e.RuleFree → ∀ (bound : Bound) (p : Pending),
    e.parse call bound p = .ofReading p (e.read? p)
  | .term t, _, _, p => by
    rcases p with _ | ⟨s | n, p⟩
    · rfl
    · by_cases hs : t.accepts s <;> simp [parse, read?, Pending.takeToken?, hs, Attempt.ofReading]
    · rfl
  | .bounded e own, h, _, p => by
    cases h with
    | bounded h => exact h.parse_eq own p
  | .choice es, h, bound, p => by
    cases h with
    | choice h => exact parseFirst_eq h bound p
  | .sequence es, h, bound, p => by
    cases h with
    | sequence h => exact parseEach_eq h bound p

theorem parseFirst_eq : ∀ {es : List Phrase}, (∀ e ∈ es, e.RuleFree) → ∀ (bound : Bound) (p : Pending),
    parseFirst call es bound p = .ofReading p (readFirst? es p)
  | [], _, _, _ => rfl
  | e :: es, h, bound, p => by
    obtain ⟨he, hes⟩ := List.forall_mem_cons.mp h
    rw [parseFirst, he.parse_eq, readFirst?]
    cases e.read? p with
    | some c => rfl
    | none => exact parseFirst_eq hes bound p

/-- What the first elements read is back at the front if a later one cannot read. -/
theorem parseEach_eq : ∀ {es : List Phrase}, (∀ e ∈ es, e.RuleFree) → ∀ (bound : Bound) (p : Pending),
    parseEach call es bound p = .ofReading p (readEach? es p)
  | [], _, _, _ => rfl
  | e :: es, h, bound, p => by
    obtain ⟨he, hes⟩ := List.forall_mem_cons.mp h
    rw [parseEach, he.parse_eq, readEach?]
    cases hr : e.read? p with
    | none => rfl
    | some c =>
      obtain ⟨tokens, rest⟩ := c
      dsimp only
      have hs : parseEach call es bound rest = _ := parseEach_eq hes bound rest
      cases hr' : readEach? es rest with
      | some c => simp [Attempt.ofReading, Attempt.followedBy, hs, hr']
      | none =>
        rw [hr'] at hs
        rw [Attempt.ofReading, Attempt.followedBy_of_failed hs, Attempt.restore_terminals, ← eq_append_of_read? hr]
        rfl

end

theorem takesTokens_ofReading {p : Pending} {r : Option (List String × Pending)}
    (h : ∀ tokens rest, r = some (tokens, rest) → p = tokens.map .token ++ rest) :
    (Attempt.ofReading p r).TakesTokens p := by
  cases r with
  | some c => exact ⟨c.1, rfl, h _ _ rfl⟩
  | none => exact rfl

theorem takesTokens_parse (e : Phrase) (bound : Bound) (p : Pending) (h : e.RuleFree) :
    (e.parse call bound p).TakesTokens p := by
  rw [h.parse_eq]
  exact takesTokens_ofReading fun _ _ => eq_append_of_read?

theorem takesTokens_parseEach (es : List Phrase) (bound : Bound) (p : Pending) (h : ∀ e ∈ es, e.RuleFree) :
    (parseEach call es bound p).TakesTokens p := by
  rw [parseEach_eq h]
  exact takesTokens_ofReading fun _ _ => eq_append_of_readEach?

/-- Behind its left corner the phrase takes raw tokens. A failure puts the left corner back as well. -/
theorem RuleFreeBehind.meets_complete : ∀ {e : Phrase}, e.RuleFreeBehind → ∀ (bound : Bound) {p q : Pending}
    {left : Item}, e.corner? q = some (left, p) → (e.complete call left bound p).Meets
      (fun nodes rest => ∃ tokens : List String, nodes = left.toNode :: tokens.map .terminal ∧
        p = tokens.map .token ++ rest)
      (fun rest => rest = left :: p) False
  | .term t, _, _, p, q, left, hl => by
    obtain ⟨⟨s, q⟩, -, he⟩ := Option.map_eq_some_iff.mp hl
    cases he
    exact ⟨[], rfl, rfl⟩
  | .rule name, _, _, p, q, left, hl => by
    obtain ⟨⟨t, q⟩, -, he⟩ := Option.map_eq_some_iff.mp hl
    cases he
    exact ⟨[], rfl, rfl⟩
  | .bounded e own, h, _, _, _, _, hl => by
    cases h with
    | bounded h => exact h.meets_complete own hl
  | .sequence (e :: es), h, bound, p, q, left, hl => by
    cases h with
    | sequence h hs =>
      refine Attempt.Meets.followedBy (h.meets_complete bound hl) fun nodes rest ⟨tokens, hnodes, hp⟩ => ?_
      refine Attempt.Meets.imp (takesTokens_parseEach es bound rest hs) ?_ ?_
      · intro more rest' ⟨tokens', hmore, hrest⟩
        exact ⟨tokens ++ tokens', by simp [hnodes, hmore], by simp [hp, hrest]⟩
      · intro rest' hr
        have hc : Pending.restore [left.toNode] p = left :: p := restore_corner (e := e) hl p
        rw [hr, hnodes, ← List.singleton_append, Pending.restore_append, Attempt.restore_terminals, ← hp, hc]

/-- Whatever parses the rules and whichever bound is in force, a phrase without rules is parsed as it reads, and reads
nothing but raw tokens at the front. A phrase that names a rule at its left corner alone leaves all as it was if it cannot
be completed. -/
theorem parse_reads_and_complete_restores (call : RuleParser) (bound : Bound) (p : Pending) :
    (∀ e : Phrase, e.RuleFree → e.parse call bound p = .ofReading p (e.read? p) ∧
      ∀ tokens rest, e.read? p = some (tokens, rest) → p = tokens.map .token ++ rest) ∧
    ∀ (e : Phrase) left rest, e.RuleFreeBehind → e.corner? p = some (left, rest) →
      (e.complete call left bound rest).Meets
        (fun nodes rest' => ∃ tokens : List String, nodes = left.toNode :: tokens.map .terminal ∧
          rest = tokens.map .token ++ rest')
        (fun rest' => rest' = p) False := by
  refine ⟨fun e he => ⟨he.parse_eq bound p, fun _ _ => eq_append_of_read?⟩, ?_⟩
  intro e left rest he hl
  rw [(corner?_eq_some hl).1]
  exact he.meets_complete bound hl

/-- The inner sequence misses its second token and puts the first back, where the next option finds it. Behind a tree the
same sequence misses its end, and the tree goes back to the front. -/
theorem nested_reads_and_restores :
    let call := (Grammar.empty "none").parse 1
    let inner : Phrase := "b" + "c"
    let e : Phrase := "a" + (inner ||| "b") + "d"
    let f : Phrase := .rule "expr" + inner
    let tree : Item := .node (.tree "expr" 0 [])
    let p : Pending := .ofTokens ["a", "b", "d"] Pending.endMarker
    let q : Pending := .ofTokens ["b", "d"] Pending.endMarker
    e.RuleFree ∧ e.parse call .standard p = .matched [.terminal "a", .terminal "b", .terminal "d"] [.token "$"] ∧
      f.RuleFreeBehind ∧ f.corner? (tree :: q) = some (tree, q) ∧
      f.complete call tree .standard q = .failed (tree :: q) := by
  intro call inner e f tree p q
  have he : e.RuleFree := by decide
  have hf : f.RuleFreeBehind := .sequence .rule (by decide)
  have hl : f.corner? (tree :: q) = some (tree, q) := rfl
  have hc := (parse_reads_and_complete_restores call .standard (tree :: q)).2 f tree q hf hl
  refine ⟨he, ((parse_reads_and_complete_restores call .standard p).1 e he).1, hf, hl, ?_⟩
  cases h : f.complete call tree .standard q with
  | matched nodes rest => cases h
  | failed rest =>
    rw [h] at hc
    rw [Attempt.meets_failed.mp hc]
  | exhausted => cases h

end Phrase

end LeftCorner
