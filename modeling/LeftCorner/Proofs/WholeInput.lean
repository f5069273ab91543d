import LeftCorner.Proofs.Conservation
import LeftCorner.Proofs.Licence

/-!
# How much of the input a tree stands for

Parsing all of some tokens succeeds as soon as a tree of the rule stands at the front. What is pending behind it is not
asked for, so the tree stands for the first tokens of the input, and there may be more. A rule that ends in the end
marker leaves nothing over, unless the marker is also among the tokens.
-/

namespace LeftCorner

namespace Phrase

/-- Whatever a phrase stands for ends in a token. -/
inductive EndsIn (s : String) : Phrase → Prop where
  | literal : EndsIn s (term (.literal s))
  | bounded {e own} (h : EndsIn s e) : EndsIn s (bounded e own)
  | choice {es} (h : ∀ e ∈ es, EndsIn s e) : EndsIn s (choice es)
  | sequence {es e} (h : EndsIn s e) : EndsIn s (sequence (es ++ [e]))

variable {own : Option Bound} {e : Phrase} {es : List Phrase} {parts : List Part} {s : String}

theorem exists_last_of_derives (h : Derives own (sequence (es ++ [e])) parts) :
    ∃ first last, parts = first ++ last ∧ Derives own e last := by
  induction es generalizing parts with
  | nil =>
    obtain ⟨last, more, rfl, hl, hm⟩ := derives_sequence_cons.mp h
    obtain rfl := derives_sequence_nil.mp hm
    exact ⟨[], last, by simp, hl⟩
  | cons f es ih =>
    obtain ⟨first, more, rfl, -, hm⟩ := derives_sequence_cons.mp h
    obtain ⟨middle, last, rfl, hl⟩ := ih hm
    exact ⟨first ++ middle, last, by simp, hl⟩

theorem EndsIn.leaves_of_derives (he : e.EndsIn s) (h : Derives own e parts) :
    ∃ front, Node.leavesAll (parts.map Part.node) = front ++ [s] := by
  induction he generalizing own parts with
  | literal =>
    obtain rfl := derives_literal.mp h
    exact ⟨[], rfl⟩
  | bounded _ ih => exact ih (derives_bounded.mp h)
  | choice _ ih =>
    obtain ⟨f, hf, h⟩ := derives_choice.mp h
    exact ih f hf h
  | sequence _ ih =>
    obtain ⟨first, last, rfl, hl⟩ := exists_last_of_derives h
    obtain ⟨front, hf⟩ := ih hl
    exact ⟨Node.leavesAll (first.map Part.node) ++ front, by simp [hf]⟩

end Phrase

namespace Grammar

/-- All alternatives of a rule end in a token. -/
def EndsIn (g : Grammar) (rule : RuleName) (s : String) : Prop := ∀ a, g.Offers rule a → a.phrase.EndsIn s

variable {g : Grammar} {rule : RuleName} {s : String}

theorem EndsIn.leaves_of_licensed (hr : g.EndsIn rule s) {level : Level} {children : List Node}
    (h : Node.Licensed g (.tree rule level children)) : ∃ front, Node.leavesAll children = front ++ [s] := by
  cases h with
  | @tree _ a _ ha hl _ =>
    obtain ⟨parts, hd, rfl, -⟩ := hl
    exact (hr a ha).leaves_of_derives hd

/-- Nothing stands behind the first of two equal tokens if there is only one of them. -/
theorem eq_nil_of_append_eq_concat {front behind tokens : List String} (h : front ++ [s] ++ behind = tokens ++ [s])
    (hs : s ∉ tokens) : behind = [] := by
  rcases List.eq_nil_or_concat' behind with hb | ⟨more, last, hb⟩
  · exact hb
  · rw [hb, ← List.append_assoc] at h
    obtain ⟨ht, -⟩ := List.append_inj' h rfl
    have hm : s ∈ tokens := by simp [← ht]
    exact absurd hm hs

theorem exists_matched_of_parseAll {n : Nat} {tokens : List String} {t : Tree}
    (h : g.parseAll n rule tokens = some (.ok t)) :
    ∃ rest, g.parse n rule .standard (.ofTokens tokens Pending.endMarker) = .matched t rest := by
  rw [parseAll] at h
  split at h
  next tree rest he =>
    cases h
    exact ⟨rest, he⟩
  next => cases h
  next => cases h

/-- A success means that the tree stands for the first of the tokens. It stands for all of them if its rule ends in the
end marker and there is no other end marker. -/
theorem parseAll_leaves (hg : g.IsPlain) {n : Nat} {tokens : List String} {t : Tree}
    (h : g.parseAll n rule tokens = some (.ok t)) :
    t.leaves <+: tokens ++ [Pending.endMarker] ∧
      (g.EndsIn rule Pending.endMarker → Pending.endMarker ∉ tokens → t.leaves = tokens ++ [Pending.endMarker]) := by
  obtain ⟨rest, hp⟩ := exists_matched_of_parseAll h
  have hsound := g.sound_parse n rule .standard (.ofTokens tokens Pending.endMarker)
  rw [hp] at hsound
  obtain ⟨hrule, -, hreduces⟩ := hsound
  have hleaves : t.leaves ++ Pending.leaves rest = tokens ++ [Pending.endMarker] := by
    simpa [Node.leavesAll] using hg.leavesAll_reduces hreduces
  refine ⟨⟨_, hleaves⟩, fun hr hm => ?_⟩
  have hlicensed : t.toNode.Licensed g :=
    hg.licensed_reduces hreduces (Node.licensed_tokens g (tokens ++ [Pending.endMarker])) _ List.mem_cons_self
  rw [← hrule] at hr
  obtain ⟨front, hlast⟩ := hr.leaves_of_licensed hlicensed
  have hend : t.leaves = front ++ [Pending.endMarker] := hlast
  rw [hend] at hleaves ⊢
  rw [eq_nil_of_append_eq_concat hleaves hm, List.append_nil] at hleaves
  exact hleaves

/-- Sums of letters, and statements that are a sum with the end marker behind it. -/
def statements : Grammar := ofDefinitions "statements" [
  ⟨"expr", .plain 0 (.literal "n")⟩,
  ⟨"expr", .plain 10 ((Phrase.rule "expr").upTo 10 + "+" + (Phrase.rule "expr").tighterThan 10)⟩,
  ⟨"statement", .plain 0 (.rule "expr" + "$")⟩]

theorem isPlain_statements : statements.IsPlain := isPlain_ofDefinitions (by simp [Alternative.plain])

theorem statements_endsIn : statements.EndsIn "statement" Pending.endMarker := by
  intro a ha
  have hd := offers_ofDefinitions.mp ha
  simp only [List.mem_cons, List.not_mem_nil, or_false, Definition.mk.injEq, String.reduceEq, false_and, false_or,
    true_and] at hd
  have he : Phrase.EndsIn Pending.endMarker (.sequence ([.rule "expr"] ++ [.literal "$"])) := .sequence .literal
  rw [hd]
  exact he

theorem statements_parseAll_leaves :
    let expr : Node := .tree "expr" 0 [.terminal "n"]
    let statement : Tree := ⟨"statement", 0, [.tree "expr" 10 [expr, .terminal "+", expr], .terminal "$"]⟩
    statements.IsPlain ∧ statements.parseAll 9 "statement" ["n", "+", "n"] = some (.ok statement) ∧
      statements.EndsIn "statement" Pending.endMarker ∧ statement.leaves = ["n", "+", "n", "$"] := by
  intro expr statement
  have h : statements.parseAll 9 "statement" ["n", "+", "n"] = some (.ok statement) := rfl
  have hm : Pending.endMarker ∉ ["n", "+", "n"] := by decide
  exact ⟨isPlain_statements, h, statements_endsIn, (parseAll_leaves isPlain_statements h).2 statements_endsIn hm⟩

/-- An end marker among the tokens ends the statement. -/
example : (statements.parseAll 9 "statement" ["n", "$", "n"]).map (Except.map Tree.leaves) = some (.ok ["n", "$"]) :=
  rfl

/-- The operator has no right operand. What stands before it is taken for the whole. -/
theorem statements_parseAll_part :
    let expr : Tree := ⟨"expr", 0, [.terminal "n"]⟩
    statements.IsPlain ∧ statements.parseAll 9 "expr" ["n", "+"] = some (.ok expr) ∧
      ¬ (expr.leaves = ["n", "+"] ∨ expr.leaves = ["n", "+"] ++ [Pending.endMarker]) :=
  ⟨isPlain_statements, rfl, by decide⟩

end Grammar

end LeftCorner
