import LeftCorner.Proofs.Definitions
import LeftCorner.Grammar.Parse

/-!
# Alternatives in place of a choice

An alternative whose phrase is a choice, also under bounds, has for productions the variants of its options one after
another. An alternative for each option, under the same bounds, has them too. All that a run asks of a rule is which
productions its alternatives have under a bound, in order, and of a corner set which rules can stand leftmost in them.
So rules whose alternatives agree on both may stand for one another in any grammar.
-/

namespace LeftCorner

namespace Phrase

variable {es : List Phrase} {bound : Bound} {name : RuleName}

/-- A phrase under some bounds, the outermost first. -/
def under (bounds : List Bound) (e : Phrase) : Phrase := bounds.foldr (fun own inner => bounded inner own) e

theorem variants_choice_under (bounds : List Bound) :
    ((choice es).under bounds).variants bound = es.flatMap fun e => (e.under bounds).variants bound := by
  induction bounds generalizing bound with
  | nil => exact variantsOfEach_eq_flatMap bound es
  | cons own bounds ih => exact ih

theorem mem_leftmost_choice_under (bounds : List Bound) :
    name ∈ ((choice es).under bounds).leftmost ↔ ∃ e ∈ es, name ∈ (e.under bounds).leftmost := by
  induction bounds with
  | nil =>
    change name ∈ (choice es).leftmost ↔ ∃ e ∈ es, name ∈ e.leftmost
    rw [leftmost, List.mem_eraseDups, leftmostOfEach_eq_flatMap, List.mem_flatMap]
  | cons own bounds ih => exact ih

end Phrase

namespace Alternative

/-- The productions of those alternatives of a rule whose level the bound admits. -/
def productionsOfEach (bound : Bound) (rule : RuleName) (alternatives : List Alternative) : List Production :=
  (alternatives.filter (bound.admits ·.level)).flatMap (·.productions bound rule)

/-- Lists of alternatives that have the same productions under every bound, and in which the same rules can stand
leftmost. -/
structure Alike (as bs : List Alternative) : Prop where
  productions : ∀ bound rule, productionsOfEach bound rule bs = productionsOfEach bound rule as
  leftmost : ∀ name, (∃ b ∈ bs, name ∈ b.phrase.leftmost) ↔ ∃ a ∈ as, name ∈ a.phrase.leftmost

variable {as bs as' bs' : List Alternative}

theorem productionsOfEach_append (bound : Bound) (rule : RuleName) (as bs : List Alternative) :
    productionsOfEach bound rule (as ++ bs) = productionsOfEach bound rule as ++ productionsOfEach bound rule bs := by
  simp [productionsOfEach]

theorem productionsOfEach_cons (bound : Bound) (rule : RuleName) (a : Alternative) (as : List Alternative) :
    productionsOfEach bound rule (a :: as) =
      (if bound.admits a.level then a.productions bound rule else []) ++ productionsOfEach bound rule as := by
  cases h : bound.admits a.level <;> simp [productionsOfEach, h]

theorem Alike.refl (as : List Alternative) : Alike as as := ⟨fun _ _ => rfl, fun _ => Iff.rfl⟩

theorem Alike.append (h : Alike as bs) (h' : Alike as' bs') : Alike (as ++ as') (bs ++ bs') where
  productions := by
    intro bound rule
    rw [productionsOfEach_append, productionsOfEach_append, h.productions, h'.productions]
  leftmost := by
    intro name
    simp only [List.mem_append, or_and_right, exists_or, h.leftmost name, h'.leftmost name]

/-- An alternative for each of some phrases, at the same level and under the same bounds. -/
def ofOptions (level : Level) (build : Constructor) (bounds : List Bound) (es : List Phrase) : List Alternative :=
  es.map fun e => ⟨level, e.under bounds, build⟩

variable {level : Level} {build : Constructor} {bounds : List Bound} {es : List Phrase}

theorem productions_choice_under (bound : Bound) (rule : RuleName) :
    (Alternative.mk level ((Phrase.choice es).under bounds) build).productions bound rule =
      es.flatMap fun e => (Alternative.mk level (e.under bounds) build).productions bound rule := by
  simp [Alternative.productions, Phrase.variants_choice_under, List.map_flatMap]

/-- The level is the same for all, so the bound admits all of them or none. -/
theorem productionsOfEach_ofOptions (bound : Bound) (rule : RuleName) :
    productionsOfEach bound rule (ofOptions level build bounds es) =
      if bound.admits level then
        es.flatMap fun e => (Alternative.mk level (e.under bounds) build).productions bound rule
      else [] := by
  induction es with
  | nil => split <;> rfl
  | cons e es ih =>
    rw [ofOptions, List.map_cons, productionsOfEach_cons, ← ofOptions, ih]
    split <;> rfl

theorem alike_ofOptions :
    Alike [⟨level, (Phrase.choice es).under bounds, build⟩] (ofOptions level build bounds es) where
  productions := by
    intro bound rule
    have hnil : productionsOfEach bound rule [] = [] := rfl
    rw [productionsOfEach_ofOptions, productionsOfEach_cons, productions_choice_under, hnil, List.append_nil]
  leftmost := by
    intro name
    simp [ofOptions, Phrase.mem_leftmost_choice_under]

end Alternative

namespace RuleTable

/-- Tables with the same rules in the same order, of which the alternatives are alike. -/
abbrev Alike : RuleTable → RuleTable → Prop :=
  List.Forall₂ fun r s => s.1 = r.1 ∧ Alternative.Alike r.2 s.2

variable {rules rules' : RuleTable}

theorem Alike.refl (rules : RuleTable) : Alike rules rules :=
  List.forall₂_same.mpr fun r _ => ⟨rfl, .refl r.2⟩

theorem Alike.names (h : Alike rules rules') : rules'.names = rules.names := by
  induction h with
  | nil => rfl
  | cons hr _ ih => exact congrArg₂ List.cons hr.1 ih

theorem Alike.mem_leftmost (h : Alike rules rules') {rule corner : RuleName} :
    corner ∈ rules'.leftmost rule ↔ corner ∈ rules.leftmost rule := by
  induction h with
  | nil => exact Iff.rfl
  | @cons r s _ _ hr _ ih =>
    obtain ⟨name, as⟩ := r
    obtain ⟨name', bs⟩ := s
    obtain ⟨rfl, ha⟩ := hr
    by_cases hn : rule = name'
    · subst hn
      simpa [leftmost, List.lookup_cons_self] using ha.leftmost corner
    · simpa [leftmost, List.lookup_cons, beq_false_of_ne hn] using ih

theorem Alike.mem_cornersFrom (h : Alike rules rules') {rule corner : RuleName} :
    corner ∈ rules'.cornersFrom rule ↔ corner ∈ rules.cornersFrom rule := by
  simp only [RuleTable.mem_cornersFrom, RuleTable.Leads, h.mem_leftmost]

/-- The rules that are kept have the same productions in the same order. -/
theorem Alike.productions (h : Alike rules rules') (keep : RuleName → Bool) (bound : Bound) :
    ((rules'.filter (keep ·.1)).flatMap fun s => Alternative.productionsOfEach bound s.1 s.2) =
      (rules.filter (keep ·.1)).flatMap fun r => Alternative.productionsOfEach bound r.1 r.2 := by
  induction h with
  | nil => rfl
  | @cons r s _ _ hr _ ih =>
    obtain ⟨name, as⟩ := r
    obtain ⟨name', bs⟩ := s
    obtain ⟨rfl, ha⟩ := hr
    cases hk : keep name' with
    | true => simp [hk, ih, ha.productions bound name']
    | false => simp [hk, ih]

end RuleTable

namespace Grammar

variable {g g' : Grammar} (h : RuleTable.Alike g.rules g'.rules)

include h

theorem corners?_of_alike (target : RuleName) :
    (g'.corners? target).map List.toFinset = (g.corners? target).map List.toFinset := by
  have hset : (g'.rules.cornersFrom target).toFinset = (g.rules.cornersFrom target).toFinset := by
    ext corner
    simp only [List.mem_toFinset, h.mem_cornersFrom]
  rw [corners?_eq, corners?_eq, h.names]
  split
  · exact congrArg some hset
  · rfl

theorem productions_of_alike (target : RuleName) (bound : Bound) :
    g'.productions target bound = g.productions target bound := by
  have hkeep : (g'.rules.cornersFrom target).contains = (g.rules.cornersFrom target).contains := by
    funext corner
    rw [Bool.eq_iff_iff, List.contains_iff_mem, List.contains_iff_mem, h.mem_cornersFrom]
  rw [productions, productions, corners?_eq, corners?_eq, h.names]
  by_cases hn : target ∈ g.rules.names
  · simp only [if_pos hn]
    rw [hkeep]
    exact h.productions _ bound
  · simp only [if_neg hn]

/-- The induction is on the allowance; nested parses have less of it. -/
theorem parse_of_alike (n : Nat) : g'.parse n = g.parse n := by
  induction n with
  | zero => rfl
  | succ n ih =>
    funext target bound p
    simp only [parse, reduce, ih, productions_of_alike h]

omit h

/-- An alternative whose phrase is a choice under some bounds may give way to an alternative for each option, under the
same bounds and at the same place. The rules have the same corners, and whatever is parsed or reduced has the same
outcome and leaves the same items pending. -/
theorem split_choice_into_alternatives (name : String) (before after : RuleTable) (rule : RuleName)
    (first last : List Alternative) (level : Level) (build : Constructor) (bounds : List Bound) (es : List Phrase) :
    let g := ofRules name
      (before ++ (rule, first ++ ⟨level, (Phrase.choice es).under bounds, build⟩ :: last) :: after)
    let g' := ofRules name
      (before ++ (rule, first ++ es.map (fun e => ⟨level, e.under bounds, build⟩) ++ last) :: after)
    (∀ target, (g'.corners? target).map List.toFinset = (g.corners? target).map List.toFinset) ∧
      (∀ n target bound p, g'.parse n target bound p = g.parse n target bound p) ∧
      ∀ n target bound p, g'.reduce (g'.parse n) target bound p = g.reduce (g.parse n) target bound p := by
  intro g g'
  have halternatives : Alternative.Alike (first ++ ⟨level, (Phrase.choice es).under bounds, build⟩ :: last)
      (first ++ es.map (fun e => ⟨level, e.under bounds, build⟩) ++ last) := by
    rw [List.append_assoc]
    exact (Alternative.Alike.refl first).append
      (Alternative.alike_ofOptions.append (Alternative.Alike.refl last))
  have h : RuleTable.Alike g.rules g'.rules :=
    List.rel_append (RuleTable.Alike.refl before) (.cons ⟨rfl, halternatives⟩ (RuleTable.Alike.refl after))
  refine ⟨corners?_of_alike h, fun n target bound p => ?_, fun n target bound p => ?_⟩
  · rw [parse_of_alike h]
  · rw [parse_of_alike h, reduce, productions_of_alike h, reduce]

end Grammar

end LeftCorner
