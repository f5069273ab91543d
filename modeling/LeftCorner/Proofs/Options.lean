import LeftCorner.Proofs.Advance
import LeftCorner.Proofs.RuleFree

/-!
# The options of a choice

An option of a choice is tried on what the failures before it left pending. What they matched is back there, but what
they reduced stays reduced, and an option that asks for a token does not find it any more if it has become part of a
tree. An option that names no rule leaves nothing behind, so the next one may forget about it. How options are grouped
to choices makes no difference.
-/

namespace LeftCorner

namespace Phrase

variable {call : RuleParser} {bound : Bound} {p rest : Pending}

theorem parseFirst_append (es fs : List Phrase) (bound : Bound) (p : Pending) :
    parseFirst call (es ++ fs) bound p = (parseFirst call es bound p).orElse (parseFirst call fs bound) := by
  simp only [parseFirst_eq_first, List.map_append, Attempt.first_append]

theorem parseFirst_singleton (e : Phrase) (bound : Bound) : parseFirst call [e] bound = e.parse call bound := by
  rw [parseFirst_eq_first, List.map_singleton, Attempt.first_singleton]

/-- A choice of two options, whether they stand in a list or one makes the other longer. -/
theorem parse_choice_pair (e f : Phrase) (bound : Bound) (p : Pending) :
    (choice [e, f]).parse call bound p = (e.parse call bound p).orElse (f.parse call bound) := by
  rw [parse, parseFirst, parseFirst_singleton]

theorem parse_orElse (e f : Phrase) (bound : Bound) (p : Pending) :
    (e ||| f).parse call bound p = (e.parse call bound p).orElse (f.parse call bound) := by
  change (orElse e f).parse call bound p = _
  cases e with
  | choice es => rw [orElse, parse, parseFirst_append, parseFirst_singleton, parse]
  | term _ | rule _ | bounded _ _ | sequence _ => exact parse_choice_pair _ f bound p

/-- A choice that is resolved into variants has the outcome of its options tried in order, each parsed in full under the
bound in force on what the failures before it left pending. This is what parsing does. So three phrases may be grouped
to a choice either way. -/
theorem resolved_choice_in_order (g : Grammar) (n : Nat) (bound : Bound) (p : Pending) :
    (∀ es, (choice es).parseResolved (g.parse n) bound p =
        Attempt.first (es.map fun e => e.parseResolved (g.parse n) bound) p) ∧
      (∀ e : Phrase, e.parse (g.parse n) bound p = e.parseResolved (g.parse n) bound p) ∧
      ∀ a b c : Phrase, (a ||| b ||| c).parseResolved (g.parse n) bound p =
        (a ||| (b ||| c)).parseResolved (g.parse n) bound p := by
  refine ⟨fun es => ?_, fun e => ?_, fun a b c => ?_⟩
  · simp only [parseResolved_eq_parse]
    rw [parse, parseFirst_eq_first]
  · rw [parseResolved_eq_parse]
  · rw [parseResolved_eq_parse, parseResolved_eq_parse, parse_orElse, parse_orElse, parse_orElse, Attempt.orElse_assoc]
    congr 1
    funext rest
    exact (parse_orElse b c bound rest).symm

/-- If the first option fails, the second is parsed as it is alone on what the first left pending. That has at most
advanced from what was pending before, and it is the same if the first option names no rule. -/
theorem parse_second_option (g : Grammar) (n : Nat) {e f : Phrase} (h : e.parse (g.parse n) bound p = .failed rest) :
    (choice [e, f]).parse (g.parse n) bound p = f.parse (g.parse n) bound rest ∧
      (e ||| f).parse (g.parse n) bound p = f.parse (g.parse n) bound rest ∧
      g.Advances (fun _ => True) p rest ∧ (e.RuleFree → rest = p) := by
  refine ⟨?_, ?_, ?_, fun he => ?_⟩
  · rw [parse_choice_pair, h, Attempt.orElse_failed]
  · rw [parse_orElse, h, Attempt.orElse_failed]
  · have hc : RuleParser.Advances g (fun _ => True) (g.parse n) := Grammar.advances_parse (fun _ _ _ _ _ => trivial) n
    have ha : (e.parse (g.parse n) bound p).Advances g (fun _ => True) [] p :=
      advances_parse hc e p trivial fun _ _ => trivial
    rw [h] at ha
    obtain ⟨behind, rfl, ha⟩ := ha
    exact ha
  · have ht : (e.parse (g.parse n) bound p).TakesTokens p := takesTokens_parse e bound p he
    rw [h] at ht
    exact ht

/-- A letter is an item. -/
def letters : Grammar := .ofDefinitions "letters" [⟨"item", .plain 0 (.literal "a")⟩]

theorem letters_second_option :
    let e : Phrase := .rule "item" + "b"
    let rest : Pending := [.node (.tree "item" 0 [.terminal "a"]), .token "$"]
    e.parse (letters.parse 9) .standard [.token "a", .token "$"] = .failed rest ∧
      (e ||| .rule "item").parse (letters.parse 9) .standard [.token "a", .token "$"] =
        .matched [.tree "item" 0 [.terminal "a"]] [.token "$"] := by
  intro e rest
  have h : e.parse (letters.parse 9) .standard [.token "a", .token "$"] = .failed rest := rfl
  exact ⟨h, (parse_second_option letters 9 h).2.1⟩

/-- The first option makes an item of the letter that the second asks for. -/
theorem letters_first_option_interferes :
    let e : Phrase := .rule "item" + "b"
    let f : Phrase := "a"
    let p : Pending := [.token "a", .token "$"]
    let rest : Pending := [.node (.tree "item" 0 [.terminal "a"]), .token "$"]
    letters.IsPlain ∧ e.parse (letters.parse 9) .standard p = .failed rest ∧
      (e ||| f).parse (letters.parse 9) .standard p = .failed rest ∧
      f.parse (letters.parse 9) .standard p = .matched [.terminal "a"] [.token "$"] :=
  ⟨Grammar.isPlain_ofDefinitions (by simp [Alternative.plain]), rfl, rfl, rfl⟩

end Phrase

end LeftCorner
