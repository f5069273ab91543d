import LeftCorner.Phrase.Basic

/-!
# Variants and leftmost rules

A choice at the top of a phrase, also under bounds, is a list of variants to be tried one by one. Each goes
with the bound that is in force for it: that of the innermost bounded phrase around it, or else the one in
force for the whole. The rules that can stand leftmost in a phrase are those of its variants.
-/

namespace LeftCorner.Phrase

mutual

/-- The variants of a phrase under the bound in force, in order. -/
def variants (bound : Bound) : Phrase → List (Phrase × Bound)
  | choice es => variantsOfEach bound es
  | bounded e own => variants own e
  | term t => [(term t, bound)]
  | rule name => [(rule name, bound)]
  | sequence es => [(sequence es, bound)]

def variantsOfEach (bound : Bound) : List Phrase → List (Phrase × Bound)
  | [] => []
  | e :: es => variants bound e ++ variantsOfEach bound es

end

theorem variantsOfEach_eq_flatMap (bound : Bound) (es : List Phrase) :
    variantsOfEach bound es = es.flatMap (variants bound) := by
  induction es with
  | nil => rfl
  | cons e es ih => simp [variantsOfEach, ih]

section

variable {P : Phrase → Bound → Prop}

mutual

/-- What a phrase hands on, under the bound in force, to what is bounded in it and to the options of a choice, its
variants have. -/
theorem of_variant (hbounded : ∀ e own bound, P (bounded e own) bound → P e own)
    (hchoice : ∀ es bound, P (choice es) bound → ∀ e ∈ es, P e bound) :
    ∀ {e : Phrase} {bound : Bound} {v : Phrase × Bound}, v ∈ e.variants bound → P e bound → P v.1 v.2
  | term _, _, _, hv, h | rule _, _, _, hv, h | sequence _, _, _, hv, h => by
    obtain rfl := List.mem_singleton.mp hv
    exact h
  | bounded e own, bound, _, hv, h => of_variant hbounded hchoice (e := e) hv (hbounded e own bound h)
  | choice es, bound, _, hv, h => of_variantOfEach hbounded hchoice hv (hchoice es bound h)

theorem of_variantOfEach (hbounded : ∀ e own bound, P (bounded e own) bound → P e own)
    (hchoice : ∀ es bound, P (choice es) bound → ∀ e ∈ es, P e bound) :
    ∀ {es : List Phrase} {bound : Bound} {v : Phrase × Bound}, v ∈ variantsOfEach bound es →
      (∀ e ∈ es, P e bound) → P v.1 v.2
  | [], _, _, hv, _ => absurd hv List.not_mem_nil
  | e :: es, _, _, hv, h => by
    obtain ⟨he, hes⟩ := List.forall_mem_cons.mp h
    rcases List.mem_append.mp hv with hv | hv
    · exact of_variant hbounded hchoice hv he
    · exact of_variantOfEach hbounded hchoice hv hes

end

end

/-- A choice that was made longer has the variants of both. -/
theorem variants_orElse (e f : Phrase) (bound : Bound) :
    (e ||| f).variants bound = e.variants bound ++ f.variants bound := by
  change (orElse e f).variants bound = _
  cases e <;> simp [orElse, variants, variantsOfEach_eq_flatMap]

mutual

/-- The rules that can stand leftmost in a phrase: of a sequence only its first element counts. A choice
names each of its rules once. -/
def leftmost : Phrase → List RuleName
  | term _ => []
  | rule name => [name]
  | bounded e _ => leftmost e
  | choice es => (leftmostOfEach es).eraseDups
  | sequence [] => []
  | sequence (e :: _) => leftmost e

def leftmostOfEach : List Phrase → List RuleName
  | [] => []
  | e :: es => leftmost e ++ leftmostOfEach es

end

theorem leftmostOfEach_eq_flatMap (es : List Phrase) : leftmostOfEach es = es.flatMap leftmost := by
  induction es with
  | nil => rfl
  | cons e es ih => simp [leftmostOfEach, ih]

theorem mem_leftmost_orElse {e f : Phrase} {name : RuleName} :
    name ∈ (e ||| f).leftmost ↔ name ∈ e.leftmost ∨ name ∈ f.leftmost := by
  change name ∈ (orElse e f).leftmost ↔ _
  cases e <;> simp [orElse, leftmost, leftmostOfEach_eq_flatMap]

end LeftCorner.Phrase
