import LeftCorner.Phrase.Variants

/-!
# The rules and terms of a phrase

A phrase asks a parser of rules only for the rules it names, at whatever place, and looks for no tokens but those that
its terms accept. A variant of a phrase has no other rules and terms than the whole.
-/

namespace LeftCorner.Phrase

mutual

/-- The rules that are named in a phrase, at any place. -/
def references : Phrase → List RuleName
  | term _ => []
  | rule name => [name]
  | bounded e _ => references e
  | choice es | sequence es => referencesOfEach es

def referencesOfEach : List Phrase → List RuleName
  | [] => []
  | e :: es => references e ++ referencesOfEach es

end

theorem referencesOfEach_eq_flatMap (es : List Phrase) : referencesOfEach es = es.flatMap references := by
  induction es with
  | nil => rfl
  | cons e es ih => simp [referencesOfEach, ih]

theorem references_subset_of_variant {e : Phrase} {bound : Bound} {v : Phrase × Bound} (hv : v ∈ e.variants bound) :
    v.1.references ⊆ e.references := by
  refine of_variant (P := fun f _ => f.references ⊆ e.references) (fun _ _ _ h => h) ?_ hv (List.Subset.refl _)
  intro es _ h f hf name hn
  apply h
  rw [references, referencesOfEach_eq_flatMap]
  exact List.mem_flatMap.mpr ⟨f, hf, hn⟩

mutual

theorem leftmost_subset_references : ∀ e : Phrase, e.leftmost ⊆ e.references
  | term _ => List.nil_subset _
  | rule _ => List.Subset.refl _
  | bounded e _ => leftmost_subset_references e
  | choice es => by
    intro name hn
    rw [leftmost, List.mem_eraseDups] at hn
    exact leftmostOfEach_subset_references es hn
  | sequence [] => List.nil_subset _
  | sequence (e :: _) => fun _ hn => List.mem_append_left _ (leftmost_subset_references e hn)

theorem leftmostOfEach_subset_references : ∀ es : List Phrase, leftmostOfEach es ⊆ referencesOfEach es
  | [] => List.nil_subset _
  | e :: es => by
    intro name hn
    rcases List.mem_append.mp hn with hn | hn
    · exact List.mem_append_left _ (leftmost_subset_references e hn)
    · exact List.mem_append_right _ (leftmostOfEach_subset_references es hn)

end

mutual

/-- The terms of a phrase, at any place. -/
def terms : Phrase → List Term
  | term t => [t]
  | rule _ => []
  | bounded e _ => terms e
  | choice es | sequence es => termsOfEach es

def termsOfEach : List Phrase → List Term
  | [] => []
  | e :: es => terms e ++ termsOfEach es

end

theorem termsOfEach_eq_flatMap (es : List Phrase) : termsOfEach es = es.flatMap terms := by
  induction es with
  | nil => rfl
  | cons e es ih => simp [termsOfEach, ih]

theorem terms_subset_of_variant {e : Phrase} {bound : Bound} {v : Phrase × Bound} (hv : v ∈ e.variants bound) :
    v.1.terms ⊆ e.terms := by
  refine of_variant (P := fun f _ => f.terms ⊆ e.terms) (fun _ _ _ h => h) ?_ hv (List.Subset.refl _)
  intro es _ h f hf t ht
  apply h
  rw [terms, termsOfEach_eq_flatMap]
  exact List.mem_flatMap.mpr ⟨f, hf, ht⟩

end LeftCorner.Phrase
