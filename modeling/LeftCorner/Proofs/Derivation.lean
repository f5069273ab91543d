import LeftCorner.Grammar.Basic

/-!
# Derivations

A derivation says how a list of nodes stands for a phrase, apart from the order in which a parser finds the
nodes: a term stands for a terminal it accepts, a rule for a tree of its name, a sequence for what its
elements stand for one after another, a choice for what one of its options stands for. Each node of a rule
goes with the bound it stands under, which is that of the innermost bounded phrase around the rule.

An alternative licenses the children of a tree if its phrase derives them and all but the first are at
welcome levels. The first is the left corner, whose level nobody judges.
-/

namespace LeftCorner

/-- A node of a derivation and the bound it stands under. -/
structure Part where
  node : Node
  bound? : Option Bound

namespace Part

/-- The bound that a part stands under admits its level. -/
def Welcome (part : Part) : Prop := ∀ bound ∈ part.bound?, bound.admits part.node.level

end Part

namespace Phrase

/-- The parts that a phrase derives where it stands under a bound, or under none. -/
inductive Derives : Option Bound → Phrase → List Part → Prop where
  | term {own t token} (ht : t.accepts token) : Derives own (term t) [⟨.terminal token, none⟩]
  | rule {own name level children} : Derives own (rule name) [⟨.tree name level children, own⟩]
  | bounded {own e bound parts} (h : Derives (some bound) e parts) : Derives own (bounded e bound) parts
  | choice {own e es parts} (he : e ∈ es) (h : Derives own e parts) : Derives own (choice es) parts
  | nothing {own} : Derives own (sequence []) []
  | following {own e es parts more} (h : Derives own e parts) (hs : Derives own (sequence es) more) :
      Derives own (sequence (e :: es)) (parts ++ more)

theorem derives_term {own : Option Bound} {t : Term} {parts : List Part} :
    Derives own (term t) parts ↔ ∃ token, t.accepts token ∧ parts = [⟨.terminal token, none⟩] := by
  constructor
  · intro h
    cases h with
    | term ht => exact ⟨_, ht, rfl⟩
  · intro h
    obtain ⟨token, ht, rfl⟩ := h
    exact .term ht

theorem derives_rule {own : Option Bound} {name : RuleName} {parts : List Part} :
    Derives own (rule name) parts ↔ ∃ level children, parts = [⟨.tree name level children, own⟩] := by
  constructor
  · intro h
    cases h with
    | rule => exact ⟨_, _, rfl⟩
  · intro h
    obtain ⟨level, children, rfl⟩ := h
    exact .rule

theorem derives_bounded {own : Option Bound} {e : Phrase} {bound : Bound} {parts : List Part} :
    Derives own (bounded e bound) parts ↔ Derives (some bound) e parts := by
  constructor
  · intro h
    cases h with
    | bounded h => exact h
  · exact .bounded

theorem derives_choice {own : Option Bound} {es : List Phrase} {parts : List Part} :
    Derives own (choice es) parts ↔ ∃ e ∈ es, Derives own e parts := by
  constructor
  · intro h
    cases h with
    | choice he h => exact ⟨_, he, h⟩
  · intro h
    obtain ⟨e, he, h⟩ := h
    exact .choice he h

theorem derives_sequence_nil {own : Option Bound} {parts : List Part} :
    Derives own (sequence []) parts ↔ parts = [] := by
  constructor
  · intro h
    cases h with
    | nothing => rfl
  · intro h
    subst h
    exact .nothing

theorem derives_sequence_cons {own : Option Bound} {e : Phrase} {es : List Phrase} {parts : List Part} :
    Derives own (sequence (e :: es)) parts ↔
      ∃ first more, parts = first ++ more ∧ Derives own e first ∧ Derives own (sequence es) more := by
  constructor
  · intro h
    cases h with
    | following h hs => exact ⟨_, _, rfl, h, hs⟩
  · intro h
    obtain ⟨first, more, rfl, h, hs⟩ := h
    exact .following h hs

theorem derives_literal {own : Option Bound} {s : String} {parts : List Part} :
    Derives own (literal s) parts ↔ parts = [⟨.terminal s, none⟩] := by
  simp [literal, derives_term]

theorem derives_pair {own : Option Bound} {e f : Phrase} {parts : List Part} :
    Derives own (sequence [e, f]) parts ↔ ∃ first more, parts = first ++ more ∧ Derives own e first ∧
      Derives own f more := by
  simp [derives_sequence_cons, derives_sequence_nil]

theorem derives_triple {own : Option Bound} {e f k : Phrase} {parts : List Part} :
    Derives own (sequence [e, f, k]) parts ↔ ∃ first middle last, parts = first ++ (middle ++ last) ∧
      Derives own e first ∧ Derives own f middle ∧ Derives own k last := by
  rw [derives_sequence_cons]
  constructor
  · intro h
    obtain ⟨first, more, rfl, hf, hm⟩ := h
    obtain ⟨middle, last, rfl, hm, hl⟩ := derives_pair.mp hm
    exact ⟨first, middle, last, rfl, hf, hm, hl⟩
  · intro h
    obtain ⟨first, middle, last, rfl, hf, hm, hl⟩ := h
    exact ⟨first, middle ++ last, rfl, hf, derives_pair.mpr ⟨middle, last, rfl, hm, hl⟩⟩

/-- A bound in force agrees with the bound that a phrase stands under, if it stands under one. -/
def InForce (own : Option Bound) (bound : Bound) : Prop := ∀ b ∈ own, b = bound

@[simp] theorem inForce_none (bound : Bound) : InForce none bound := by simp [InForce]

@[simp] theorem inForce_some {b bound : Bound} : InForce (some b) bound ↔ b = bound := by simp [InForce]

/-- What a variant derives under some bound, the phrase derives. The bound in force for the variant agrees
with the one it stands under. -/
theorem derives_of_variant (e : Phrase) {own : Option Bound} {bound : Bound} {v : Phrase × Bound}
    (ho : InForce own bound) (hv : v ∈ e.variants bound) :
    ∃ own', InForce own' v.2 ∧ ∀ parts, Derives own' v.1 parts → Derives own e parts := by
  refine of_variant (P := fun f b => ∃ own', InForce own' b ∧ ∀ parts, Derives own' f parts → Derives own e parts)
    ?_ ?_ hv ⟨own, ho, fun _ h => h⟩
  · intro f b _ ⟨own', _, h⟩
    exact ⟨some b, inForce_some.mpr rfl, fun parts hp => h parts (.bounded hp)⟩
  · intro es _ ⟨own', ho', h⟩ f hf
    exact ⟨own', ho', fun parts hp => h parts (.choice hf hp)⟩

end Phrase

/-- The children that an alternative may have: derived by its phrase, all but the first at welcome levels. -/
def Alternative.Licenses (a : Alternative) (children : List Node) : Prop :=
  ∃ parts, a.phrase.Derives none parts ∧ parts.map Part.node = children ∧ ∀ part ∈ parts.tail, part.Welcome

end LeftCorner
