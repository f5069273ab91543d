import LeftCorner.Proofs.Outcome
import LeftCorner.Proofs.Parallel
import LeftCorner.Proofs.Productions

/-!
# Tokens that no term accepts

A run only ever looks at the front of what is pending, and a token that no term accepts is neither taken nor part of a
reduction. So it is never passed: whatever stands behind it, a run ends in the same way, with the same items in front of
the token, and what stands behind it stays as it is.
-/

namespace LeftCorner

namespace Pending

variable {α : Type} {t : Term} {m : String}

theorem takeToken?_append_of_not_accepts (h : ¬ t.accepts m) (front behind : Pending) :
    takeToken? t (front ++ .token m :: behind) =
      (takeToken? t front).map fun c => (c.1, c.2 ++ .token m :: behind) := by
  rcases front with _ | ⟨_ | _, front⟩
  · simp [takeToken?, h]
  · simp only [List.cons_append, takeToken?]
    split <;> rfl
  · rfl

theorem takeTree?_append_token (welcome : Tree → Bool) (front behind : Pending) :
    takeTree? welcome (front ++ .token m :: behind) =
      (takeTree? welcome front).map fun c => (c.1, c.2 ++ .token m :: behind) := by
  rcases front with _ | ⟨_ | _ | _, front⟩
  · rfl
  · rfl
  · rfl
  · simp only [List.cons_append, takeTree?]
    split <;> rfl

/-- The same items, with a token behind them and other items behind that. -/
def Before (m : String) (behind behind' p q : Pending) : Prop :=
  ∃ front, p = front ++ .token m :: behind ∧ q = front ++ .token m :: behind'

/-- What is taken in front of the token is the same whatever stands behind it. -/
theorem takenAlike_before {c : Option (α × Pending)} (behind behind' : Pending) :
    TakenAlike (Before m behind behind') (c.map fun c => (c.1, c.2 ++ .token m :: behind))
      (c.map fun c => (c.1, c.2 ++ .token m :: behind')) := by
  cases c with
  | none => exact .none
  | some c => exact .some c.1 ⟨c.2, rfl, rfl⟩

theorem coupling_before (m : String) (behind behind' : Pending) : Coupling (Before m behind behind') where
  cons := by
    rintro i _ _ ⟨front, rfl, rfl⟩
    exact ⟨i :: front, rfl, rfl⟩
  takeTree := by
    rintro welcome _ _ ⟨front, rfl, rfl⟩
    rw [takeTree?_append_token, takeTree?_append_token]
    exact takenAlike_before behind behind'

theorem tokenAlike_before (h : ¬ t.accepts m) (behind behind' : Pending) :
    TokenAlike (Before m behind behind') t := by
  rintro _ _ ⟨front, rfl, rfl⟩
  rw [takeToken?_append_of_not_accepts h, takeToken?_append_of_not_accepts h]
  exact takenAlike_before behind behind'

end Pending

/-- No term of a phrase accepts a token. -/
abbrev Phrase.Refuses (m : String) (e : Phrase) : Prop := ∀ t ∈ e.terms, ¬ t.accepts m

namespace Grammar

/-- No term of an alternative accepts a token. -/
def Refuses (g : Grammar) (m : String) : Prop := ∀ rule a, g.Offers rule a → a.phrase.Refuses m

theorem refuses_ofDefinitions {name m : String} {ds : List Definition} (h : ∀ d ∈ ds, d.alternative.phrase.Refuses m) :
    (ofDefinitions name ds).Refuses m :=
  fun rule a ha => h ⟨rule, a⟩ (offers_ofDefinitions.mp ha)

variable {g : Grammar} {m : String}

theorem Refuses.production (hm : g.Refuses m) {target : RuleName} {bound : Bound} {d : Production}
    (hd : d ∈ g.productions target bound) : d.phrase.Refuses m := by
  obtain ⟨-, a, ha, -, hv⟩ := mem_productions.mp hd
  intro t ht
  exact hm _ a ha t (Phrase.terms_subset_of_variant (Alternative.mem_productions.mp hv).2.2.2 ht)

/-- The induction is on the allowance; nested parses have less of it. -/
theorem Refuses.parallel_parse (hm : g.Refuses m) (behind behind' : Pending) (n : Nat) (name : RuleName) :
    RuleParser.ParallelAt (Pending.Before m behind behind') False (g.parse n) (g.parse n) name := by
  induction n generalizing name with
  | zero => exact fun _ _ _ _ => .exhausted
  | succ n ih =>
    intro bound p q hp
    have hc := Pending.coupling_before m behind behind'
    have hds : ∀ d ∈ g.productions name bound,
        d.phrase.Coupled (Pending.Before m behind behind') False (g.parse n) (g.parse n) :=
      fun d hd => ⟨fun rule _ => ih rule, fun t ht => Pending.tokenAlike_before (hm.production hd t ht) behind behind'⟩
    exact parallel_parse_succ hc (Production.parallel_attemptFirst hc hds hp) (ih name)

/-- A token that no term accepts ends what a parse can see. With more items behind it, a parse returns the same tree, or
none as before, and leaves the same items pending with the others behind them. -/
theorem parse_before_refused (hm : g.Refuses m) (n : Nat) (name : RuleName) (bound : Bound) (xs ys : Pending) :
    (g.parse n name bound (xs ++ [.token m])).Meets
      (fun t rest => g.parse n name bound (xs ++ [.token m] ++ ys) = .matched t (rest ++ ys))
      (fun rest => g.parse n name bound (xs ++ [.token m] ++ ys) = .failed (rest ++ ys))
      (g.parse n name bound (xs ++ [.token m] ++ ys) = .exhausted) := by
  have h := hm.parallel_parse [] ys n name bound _ _ ⟨xs, rfl, rfl⟩
  rw [List.append_assoc, List.singleton_append]
  generalize g.parse n name bound (xs ++ [.token m]) = a, g.parse n name bound (xs ++ .token m :: ys) = a' at h
  cases h with
  | matched t h =>
    obtain ⟨front, rfl, rfl⟩ := h
    simp
  | failed h =>
    obtain ⟨front, rfl, rfl⟩ := h
    simp
  | exhausted => simp
  | stopped h => exact h.elim

/-- The second number of a pair is asked for before the semicolon, and the one behind it is not found. -/
theorem pairs_parse_before_refused :
    let item : Item := .node (.tree "item" 0 [.terminal "1"])
    pairs.Refuses ";" ∧
      pairs.parse 9 "pair" .standard [.token "1", .token ",", .token ";"] = .failed [item, .token ",", .token ";"] ∧
      pairs.parse 9 "pair" .standard [.token "1", .token ",", .token ";", .token "2"] =
        .failed [item, .token ",", .token ";", .token "2"] := by
  intro item
  have hm : pairs.Refuses ";" := refuses_ofDefinitions (by decide)
  have h : pairs.parse 9 "pair" .standard [.token "1", .token ",", .token ";"] =
      .failed [item, .token ",", .token ";"] := rfl
  have hb := parse_before_refused hm 9 "pair" .standard [.token "1", .token ","] [.token "2"]
  rw [List.cons_append, List.singleton_append, h] at hb
  exact ⟨hm, h, hb⟩

end Grammar

end LeftCorner
