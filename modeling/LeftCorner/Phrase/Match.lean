import LeftCorner.Attempt
import LeftCorner.Phrase.Variants

/-!
# Matching phrases

A phrase is matched in one of two ways. At the front of a reduction its *left corner* is taken first, as a
token or as a tree that is already there, and then the phrase is *completed*. Everything behind a left
corner is *parsed*: rules are reduced on demand, for which the functions here are given a parser of rules.
An attempt that fails puts back what it matched.

There are two ways to parse a choice. It may be resolved first: choices within it, also under bounds, are opened up,
and what remains is a list of variants, of which each forgets all bounds around it but the innermost. Or its options
are tried as they stand, each by all its own options and under its own bounds in turn. Both try the same phrases under
the same bounds in the same order, and hand what a failure left pending to the next. So they have one outcome.
-/

namespace LeftCorner

/-- Reduces the front of the pending items to a tree of a rule under a bound. -/
abbrev RuleParser := RuleName → Bound → Pending → Attempt Tree

namespace Phrase

/-- Takes the left corner of a phrase: a raw token for a term, a tree for a rule. A choice has none; its
variants have. -/
def corner? : Phrase → Pending → Option (Item × Pending)
  | term t, p => (p.takeToken? t).map fun (token, rest) => (.token token, rest)
  | rule name, p => (p.takeTree? (·.rule == name)).map fun (tree, rest) => (.node tree.toNode, rest)
  | bounded e _, p => e.corner? p
  | choice _, _ => none
  | sequence [], _ => none
  | sequence (e :: _), p => e.corner? p

/-- A left corner is the front item, either a raw token or a tree. -/
theorem corner?_eq_some : ∀ {e : Phrase} {p rest : Pending} {left : Item},
    e.corner? p = some (left, rest) →
      p = left :: rest ∧ ((∃ s, left = .token s) ∨ ∃ t : Tree, left = .node t.toNode)
  | term t, p, rest, left, h => by
    obtain ⟨⟨s, q⟩, ht, he⟩ := Option.map_eq_some_iff.mp h
    cases he
    exact ⟨(Pending.takeToken?_eq_some.mp ht).1, .inl ⟨s, rfl⟩⟩
  | rule name, p, rest, left, h => by
    obtain ⟨⟨t, q⟩, ht, he⟩ := Option.map_eq_some_iff.mp h
    cases he
    exact ⟨(Pending.takeTree?_eq_some.mp ht).1, .inr ⟨t, rfl⟩⟩
  | bounded e _, _, _, _, h => corner?_eq_some (e := e) h
  | sequence (e :: _), _, _, _, h => corner?_eq_some (e := e) h

variable (call : RuleParser)

mutual

/-- Matches a phrase from the front, reducing rules on demand. The options of a choice are tried as they stand. -/
def parse : Phrase → Bound → Pending → Attempt (List Node)
  | term t, _, p =>
    match p.takeToken? t with
    | some (token, rest) => .matched [.terminal token] rest
    | none => .failed p
  | rule name, bound, p => (call name bound p).map fun tree => [tree.toNode]
  | bounded e own, _, p => parse e own p
  | choice es, bound, p => parseFirst es bound p
  | sequence es, bound, p => parseEach es bound p

/-- Matches the first phrase that succeeds, each on what the failures before it left pending. -/
def parseFirst : List Phrase → Bound → Pending → Attempt (List Node)
  | [], _, p => .failed p
  | e :: es, bound, p => (parse e bound p).orElse fun rest => parseFirst es bound rest

def parseEach : List Phrase → Bound → Pending → Attempt (List Node)
  | [], _, p => .matched [] p
  | e :: es, bound, p => (parse e bound p).followedBy fun rest => parseEach es bound rest

end

/-- Every variant of a choice is smaller than the choice. -/
theorem sizeOf_lt_of_variant {es : List Phrase} {bound : Bound} {v : Phrase × Bound}
    (hv : v ∈ (choice es).variants bound) : sizeOf v.1 < sizeOf (choice es) := by
  have hle : sizeOf v.1 ≤ sizeOf es := by
    refine of_variantOfEach (P := fun e _ => sizeOf e ≤ sizeOf es) ?_ ?_ hv ?_
    · intro e own bound h
      simp only [bounded.sizeOf_spec] at h
      omega
    · intro fs bound h f hf
      have hlt := List.sizeOf_lt_of_mem hf
      simp only [choice.sizeOf_spec] at h
      omega
    · exact fun e he => Nat.le_of_lt (List.sizeOf_lt_of_mem he)
  simp only [choice.sizeOf_spec]
  omega

/-- Matches a phrase from the front. A choice is resolved: its variants are tried in order, each under the bound that is
in force for it. -/
def parseResolved : Phrase → Bound → Pending → Attempt (List Node)
  | term t, bound, p => parse call (term t) bound p
  | rule name, bound, p => parse call (rule name) bound p
  | bounded e own, _, p => parseResolved e own p
  | choice es, bound, p =>
    Attempt.first (((choice es).variants bound).attach.map fun v => parseResolved v.1.1 v.1.2) p
  | sequence es, bound, p => Attempt.each (es.attach.map fun e => parseResolved e.1 bound) p
termination_by e => sizeOf e
decreasing_by
  · simp only [bounded.sizeOf_spec]
    omega
  · exact sizeOf_lt_of_variant v.2
  · have hlt := List.sizeOf_lt_of_mem e.2
    simp only [sequence.sizeOf_spec]
    omega

theorem parseResolved_choice (es : List Phrase) (bound : Bound) (p : Pending) :
    (choice es).parseResolved call bound p =
      Attempt.first (((choice es).variants bound).map fun v => v.1.parseResolved call v.2) p := by
  rw [parseResolved]
  simp only [List.map_attach_eq_pmap, List.pmap_eq_map]

theorem parseResolved_sequence (es : List Phrase) (bound : Bound) (p : Pending) :
    (sequence es).parseResolved call bound p = Attempt.each (es.map fun e => e.parseResolved call bound) p := by
  rw [parseResolved]
  simp only [List.map_attach_eq_pmap, List.pmap_eq_map]

mutual

/-- A phrase is matched by the first of its variants that can be. -/
theorem parse_eq_first_variants : ∀ (e : Phrase) (bound : Bound) (p : Pending),
    e.parse call bound p = Attempt.first ((e.variants bound).map fun v => v.1.parse call v.2) p
  | term _, _, _ | rule _, _, _ | sequence _, _, _ => by
    rw [variants, List.map_singleton, Attempt.first_singleton]
  | bounded e own, _, p => parse_eq_first_variants e own p
  | choice es, bound, p => parseFirst_eq_first_variants es bound p

theorem parseFirst_eq_first_variants : ∀ (es : List Phrase) (bound : Bound) (p : Pending),
    parseFirst call es bound p = Attempt.first ((variantsOfEach bound es).map fun v => v.1.parse call v.2) p
  | [], _, _ => rfl
  | e :: es, bound, p => by
    rw [parseFirst, variantsOfEach, List.map_append, Attempt.first_append, parse_eq_first_variants e bound p]
    congr 1
    funext rest
    exact parseFirst_eq_first_variants es bound rest

end

theorem parseFirst_eq_first (es : List Phrase) (bound : Bound) :
    parseFirst call es bound = Attempt.first (es.map fun e => e.parse call bound) := by
  induction es with
  | nil => rfl
  | cons e es ih =>
    funext p
    rw [parseFirst, List.map_cons, Attempt.first, ih]

theorem parseEach_eq_each (es : List Phrase) (bound : Bound) :
    parseEach call es bound = Attempt.each (es.map fun e => e.parse call bound) := by
  induction es with
  | nil => rfl
  | cons e es ih =>
    funext p
    rw [parseEach, List.map_cons, Attempt.each, ih]

/-- Resolving choices changes no outcome. The induction is on the size of the phrase, since variants may stand deep in
it. -/
theorem parseResolved_eq_parse (e : Phrase) (bound : Bound) : e.parseResolved call bound = e.parse call bound := by
  funext p
  cases e with
  | term t => rw [parseResolved]
  | rule name => rw [parseResolved]
  | bounded e own => rw [parseResolved, parseResolved_eq_parse e own, parse]
  | choice es =>
    have hruns : ((choice es).variants bound).map (fun v => v.1.parseResolved call v.2) =
        ((choice es).variants bound).map fun v => v.1.parse call v.2 :=
      List.map_congr_left fun v hv => parseResolved_eq_parse v.1 v.2
    rw [parseResolved_choice, hruns, parse_eq_first_variants]
  | sequence es =>
    have hruns : es.map (fun e => e.parseResolved call bound) = es.map fun e => e.parse call bound :=
      List.map_congr_left fun e he => parseResolved_eq_parse e bound
    rw [parseResolved_sequence, hruns, parse, parseEach_eq_each]
termination_by sizeOf e
decreasing_by
  · simp only [bounded.sizeOf_spec]
    omega
  · exact sizeOf_lt_of_variant hv
  · have hlt := List.sizeOf_lt_of_mem he
    simp only [sequence.sizeOf_spec]
    omega

/-- Completes a phrase whose left corner has been taken. A term wants a raw token there and a rule a node;
if the left corner does not fit it goes back. -/
def complete : Phrase → Item → Bound → Pending → Attempt (List Node)
  | term _, .token token, _, p => .matched [.terminal token] p
  | rule _, .node n, _, p => .matched [n] p
  | bounded e own, left, _, p => complete e left own p
  | sequence (e :: es), left, bound, p =>
    (complete e left bound p).followedBy fun rest => parseEach call es bound rest
  | term _, .node n, _, p => .failed (.node n :: p)
  | rule _, .token token, _, p => .failed (.token token :: p)
  | choice _, left, _, p => .failed (left :: p)
  | sequence [], left, _, p => .failed (left :: p)

variable {call} {own : Bound} {name : RuleName} {s token : String} {t : Tree} {p : Pending}

theorem corner?_rule_toNode :
    (rule name).corner? (.node t.toNode :: p) = if t.rule = name then some (.node t.toNode, p) else none := by
  by_cases h : t.rule = name <;> simp [corner?, Pending.takeTree?, Tree.toNode, h]

theorem corner?_literal_token :
    (literal s).corner? (.token token :: p) = if s = token then some (.token token, p) else none := by
  by_cases h : s = token <;> simp [literal, corner?, Pending.takeToken?, Term.accepts, h]

theorem parse_literal : (literal s).parse call own (.token s :: p) = .matched [.terminal s] p := by
  simp [literal, parse, Pending.takeToken?]

theorem parse_literal_of_ne (h : ∀ q, p ≠ .token s :: q) : (literal s).parse call own p = .failed p := by
  cases ht : p.takeToken? (.literal s) with
  | none => rw [literal, parse, ht]
  | some c =>
    obtain ⟨hp, ha⟩ := Pending.takeToken?_eq_some.mp ht
    rw [← Term.accepts_literal.mp ha] at hp
    exact absurd hp (h _)

variable {e : Phrase} {es : List Phrase} {left : Item} {n : Node} {more : List Node} {rest : Pending}

theorem complete_sequence_of_matched (he : e.complete call left own p = .matched [n] p)
    (hr : parseEach call es own p = .matched more rest) :
    (sequence (e :: es)).complete call left own p = .matched (n :: more) rest := by
  simp [complete, he, Attempt.followedBy, hr]

theorem complete_sequence_of_failed (he : e.complete call left own p = .matched [n] p)
    (hr : parseEach call es own p = .failed rest) :
    (sequence (e :: es)).complete call left own p = .failed (.ofMatched n :: rest) := by
  simp [complete, he, Attempt.followedBy, hr, Pending.restore]

end Phrase

end LeftCorner
