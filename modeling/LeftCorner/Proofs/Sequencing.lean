import LeftCorner.Proofs.Productions

/-!
# Sequences in sequences

A sequence that fails at one of its elements puts back what the elements before it matched. Where one sequence stands in
another, the inner one puts back its own part and then the outer one what stood before it. By then rules may have been
reduced behind these nodes, but nodes go back the same whether all at once or part by part. So it makes no difference
to a match how the elements are grouped.

A left corner is that of the first element. A sequence of no elements has none, and hides the left corner of what is
added behind it, unless it is itself made longer.
-/

namespace LeftCorner

namespace Attempt

/-- What stands behind a match may be grouped either way. A failure puts back the same nodes in one or in two parts. -/
theorem followedBy_assoc (a : Attempt (List Node)) (f g : Pending → Attempt (List Node)) :
    (a.followedBy f).followedBy g = a.followedBy fun rest => (f rest).followedBy g := by
  cases a with
  | matched nodes rest =>
    cases hf : f rest with
    | matched more rest' =>
      rw [followedBy_of_matched hf]
      cases hg : g rest' with
      | matched last rest'' =>
        have hfg : (f rest).followedBy g = .matched (more ++ last) rest'' := by rw [hf, followedBy_of_matched hg]
        rw [followedBy_of_matched hg, followedBy_of_matched hfg, List.append_assoc]
      | failed rest'' =>
        have hfg : (f rest).followedBy g = .failed (Pending.restore more rest'') := by rw [hf, followedBy_of_failed hg]
        rw [followedBy_of_failed hg, followedBy_of_failed hfg, Pending.restore_append]
      | exhausted => simp only [followedBy, hf, hg]
    | failed rest' => simp only [followedBy, hf]
    | exhausted => simp only [followedBy, hf]
  | failed rest => rfl
  | exhausted => rfl

theorem followedBy_nothing (a : Attempt (List Node)) : a.followedBy (.matched []) = a := by
  cases a with
  | matched nodes rest => rw [followedBy_of_matched rfl, List.append_nil]
  | failed rest => rfl
  | exhausted => rfl

end Attempt

namespace Phrase

variable {call : RuleParser} {bound : Bound}

theorem parseEach_singleton (e : Phrase) : parseEach call [e] bound = e.parse call bound := by
  funext p
  have h : (parseEach call [] bound : Pending → Attempt (List Node)) = .matched [] := rfl
  rw [parseEach, h, Attempt.followedBy_nothing]

theorem parseEach_append (es fs : List Phrase) (p : Pending) :
    parseEach call (es ++ fs) bound p = (parseEach call es bound p).followedBy (parseEach call fs bound) := by
  induction es generalizing p with
  | nil =>
    cases h : parseEach call fs bound p <;> simp [parseEach, Attempt.followedBy, h]
  | cons e es ih =>
    simp only [List.cons_append, parseEach, Attempt.followedBy_assoc]
    congr 1
    funext rest
    exact ih rest

theorem parse_sequence_pair (e f : Phrase) (p : Pending) :
    (sequence [e, f]).parse call bound p = (e.parse call bound p).followedBy (f.parse call bound) := by
  rw [parse, parseEach, parseEach_singleton]

theorem complete_sequence_pair (e f : Phrase) (left : Item) (p : Pending) :
    (sequence [e, f]).complete call left bound p = (e.complete call left bound p).followedBy (f.parse call bound) := by
  rw [complete, parseEach_singleton]

/-- Two phrases after one another are parsed so, also where the first is made longer. -/
theorem parse_andThen (e f : Phrase) (p : Pending) :
    (e + f).parse call bound p = (e.parse call bound p).followedBy (f.parse call bound) := by
  change (andThen e f).parse call bound p = _
  cases e with
  | sequence es => rw [andThen, parse, parseEach_append, parseEach_singleton, parse]
  | term _ | rule _ | bounded _ _ | choice _ => exact parse_sequence_pair _ f p

theorem andThen_ne_nothing (e f : Phrase) : e + f ≠ sequence [] := by
  change andThen e f ≠ _
  cases e <;> simp [andThen]

/-- What is added behind a phrase other than nothing is parsed when the phrase has been completed. -/
theorem complete_andThen {e : Phrase} (he : e ≠ sequence []) (f : Phrase) (left : Item) (p : Pending) :
    (e + f).complete call left bound p = (e.complete call left bound p).followedBy (f.parse call bound) := by
  change (andThen e f).complete call left bound p = _
  cases e with
  | sequence es =>
    cases es with
    | nil => exact absurd rfl he
    | cons e es =>
      rw [andThen, List.cons_append, complete, complete, Attempt.followedBy_assoc]
      congr 1
      funext rest
      rw [parseEach_append, parseEach_singleton]
  | term _ | rule _ | bounded _ _ | choice _ => exact complete_sequence_pair _ f left p

theorem corner?_andThen {e : Phrase} (he : e ≠ sequence []) (f : Phrase) : (e + f).corner? = e.corner? := by
  change (andThen e f).corner? = _
  funext p
  cases e with
  | sequence es =>
    cases es with
    | nil => exact absurd rfl he
    | cons e es => rfl
  | term _ | rule _ | bounded _ _ | choice _ => rfl

theorem leftmost_andThen {e : Phrase} (he : e ≠ sequence []) (f : Phrase) : (e + f).leftmost = e.leftmost := by
  change (andThen e f).leftmost = _
  cases e with
  | sequence es =>
    cases es with
    | nil => exact absurd rfl he
    | cons e es => rfl
  | term _ | rule _ | bounded _ _ | choice _ => rfl

/-- Three phrases after one another match alike however they are grouped, provided that the first is not the sequence of
no elements. They are parsed alike, take the same left corner and are completed alike behind it, whatever becomes of
this, and the same rules can stand leftmost in them. -/
theorem sequencing_assoc {a : Phrase} (ha : a ≠ sequence []) (b c : Phrase) :
    (∀ (g : Grammar) n bound p,
        (a + b + c).parse (g.parse n) bound p = (a + (b + c)).parse (g.parse n) bound p) ∧
      (∀ p, (a + b + c).corner? p = (a + (b + c)).corner? p) ∧
      (∀ (g : Grammar) n left bound p,
        (a + b + c).complete (g.parse n) left bound p = (a + (b + c)).complete (g.parse n) left bound p) ∧
      (a + b + c).leftmost = (a + (b + c)).leftmost := by
  have hab : a + b ≠ sequence [] := andThen_ne_nothing a b
  have hbehind : ∀ (call : RuleParser) bound, (fun p => (b.parse call bound p).followedBy (c.parse call bound)) =
      (b + c).parse call bound := fun call bound => funext fun p => (parse_andThen b c p).symm
  refine ⟨fun g n bound p => ?_, fun p => ?_, fun g n left bound p => ?_, ?_⟩
  · rw [parse_andThen, parse_andThen, parse_andThen, Attempt.followedBy_assoc, hbehind]
  · rw [corner?_andThen hab, corner?_andThen ha, corner?_andThen ha]
  · rw [complete_andThen hab, complete_andThen ha, complete_andThen ha, Attempt.followedBy_assoc, hbehind]
  · rw [leftmost_andThen hab, leftmost_andThen ha, leftmost_andThen ha]

/-- The last element fails. By then the number behind the parenthesis has been reduced to an item, which goes back. -/
theorem pairs_sequencing_assoc :
    let a : Phrase := "("
    let b : Phrase := .rule "item" + ","
    let c : Phrase := .rule "item"
    let p : Pending := .ofTokens ["1", ",", ";"] Pending.endMarker
    let rest : Pending := [.token "(", .node (.tree "item" 0 [.terminal "1"]), .token ",", .token ";", .token "$"]
    a ≠ sequence [] ∧ a + b + c ≠ a + (b + c) ∧
      (a + b + c).complete (Grammar.pairs.parse 9) (.token "(") .standard p = .failed rest ∧
      (a + (b + c)).complete (Grammar.pairs.parse 9) (.token "(") .standard p = .failed rest := by
  intro a b c p rest
  have ha : a ≠ sequence [] := by decide
  have h : (a + b + c).complete (Grammar.pairs.parse 9) (.token "(") .standard p = .failed rest := rfl
  refine ⟨ha, by decide, h, ?_⟩
  rw [← h]
  exact ((sequencing_assoc ha b c).2.2.1 Grammar.pairs 9 _ _ p).symm

end Phrase

end LeftCorner
