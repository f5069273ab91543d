import LeftCorner.Proofs.ArithmeticRules

/-!
# No token is lost

The tokens of what a run returns, followed by those of what it leaves pending, are the tokens that were
pending before. This holds for every grammar whose alternatives all build trees. The grammar of arithmetic
drops the parentheses of a group, and the tokens other than parentheses are conserved.
-/

namespace LeftCorner

namespace Grammar

/-- Seen through a reading of token lists, every run that ends conserves the tokens: parsing a rule, one
reduction, parsing a phrase, and completing a phrase whose left corner was taken. What is left of tokens of
which no parse was found reads as these tokens and the end marker. -/
structure Conserves (g : Grammar) (read : List String → List String) : Prop where
  parse : ∀ n name bound p, (g.parse n name bound p).Meets
    (fun t rest => read (t.leaves ++ rest.leaves) = read p.leaves)
    (fun rest => read rest.leaves = read p.leaves) True
  reduce : ∀ n target bound p, (g.reduce (g.parse n) target bound p).Meets
    (fun node rest => read (Pending.leaves (.node node :: rest)) = read p.leaves)
    (fun rest => read rest.leaves = read p.leaves) True
  phrase : ∀ n (e : Phrase) bound p, (e.parse (g.parse n) bound p).Meets
    (fun nodes rest => read (Node.leavesAll nodes ++ rest.leaves) = read p.leaves)
    (fun rest => read rest.leaves = read p.leaves) True
  completion : ∀ n (e : Phrase) left bound p rest, e.corner? p = some (left, rest) →
    (e.complete (g.parse n) left bound rest).Meets
      (fun nodes rest => read (Node.leavesAll nodes ++ rest.leaves) = read p.leaves)
      (fun rest => read rest.leaves = read p.leaves) True
  remainder : ∀ n rule tokens unparsed, g.parseAll n rule tokens = some (.error unparsed) →
    read unparsed.remainder.leaves = read (tokens ++ [Pending.endMarker])

variable {g : Grammar} {read : List String → List String}

theorem IsPlain.leavesAll_step (hg : g.IsPlain) {ns ms : List Node} (h : g.Step ns ms) :
    Node.leavesAll ms = Node.leavesAll ns := by
  obtain ⟨front, back, ha, -⟩ := h
  rw [hg _ _ ha]
  simp [Constructor.tree, Node.leavesAll, Node.leaves]

/-- A reading that no reduction changes is not changed by any number of them. -/
theorem Reduces.read_eq (read : List String → List String) {ns ms : List Node} (h : g.Reduces ns ms)
    (hs : ∀ ns ms, g.Step ns ms → read (Node.leavesAll ms) = read (Node.leavesAll ns)) :
    read (Node.leavesAll ms) = read (Node.leavesAll ns) := by
  refine h.keeps (P := fun ms => read (Node.leavesAll ms) = read (Node.leavesAll ns)) ?_ rfl
  exact fun ms ms' hm he => (hs ms ms' hm).trans he

theorem IsPlain.leavesAll_reduces (hg : g.IsPlain) {ns ms : List Node} (h : g.Reduces ns ms) :
    Node.leavesAll ms = Node.leavesAll ns :=
  h.read_eq id fun _ _ => hg.leavesAll_step

/-- If no reduction changes the reading, no run does. -/
theorem conserves_of_step
    (hs : ∀ ns ms, g.Step ns ms → read (Node.leavesAll ms) = read (Node.leavesAll ns)) : g.Conserves read := by
  have hr {ns ms : List Node} (h : g.Reduces ns ms) := h.read_eq read hs
  have hparse (n : Nat) (name : RuleName) (bound : Bound) (p : Pending) :
      (g.parse n name bound p).Meets (fun t rest => read (t.leaves ++ rest.leaves) = read p.leaves)
        (fun rest => read rest.leaves = read p.leaves) True := by
    refine (g.sound_parse n name bound p).imp ?_ fun rest h => by simpa using hr h
    intro t rest h
    obtain ⟨-, -, h⟩ := h
    simpa [Node.leavesAll] using hr h
  have hreads {p : Pending} {fits : List Node → Prop} {a : Attempt (List Node)} (h : Phrase.Reads g p fits a) :
      a.Meets (fun nodes rest => read (Node.leavesAll nodes ++ rest.leaves) = read p.leaves)
        (fun rest => read rest.leaves = read p.leaves) True := by
    refine h.imp ?_ fun rest h => by simpa using hr h
    intro nodes rest h
    obtain ⟨-, h⟩ := h
    simpa using hr h
  refine ⟨hparse, ?_, ?_, ?_, ?_⟩
  · intro n target bound p
    refine (reads_reduce (g.sound_parse n) target bound p).imp ?_ fun rest h => by simpa using hr h
    intro node rest h
    simpa [Node.leavesAll, Item.leaves] using hr h
  · intro n e bound p
    exact hreads (Phrase.reads_parse (g.sound_parse n) e p (Phrase.inForce_none bound))
  · intro n e left bound p rest hl
    exact hreads (Phrase.reads_complete (g.sound_parse n) e (Phrase.inForce_none bound) hl)
  · intro n rule tokens unparsed h
    have hp := hparse n rule .standard (.ofTokens tokens Pending.endMarker)
    unfold parseAll at h
    split at h
    next => cases h
    next rest he =>
      cases h
      rw [he] at hp
      simpa using hp
    next => cases h

end Grammar

namespace Arithmetic

/-- The tokens that are no parentheses. -/
def ungrouped (tokens : List String) : List String := tokens.filter fun t => t ≠ "(" ∧ t ≠ ")"

@[simp] theorem ungrouped_append (ts us : List String) :
    ungrouped (ts ++ us) = ungrouped ts ++ ungrouped us := by
  simp [ungrouped]

theorem ungrouped_step {ns ms : List Node} (h : grammar.Step ns ms) :
    ungrouped (Node.leavesAll ms) = ungrouped (Node.leavesAll ns) := by
  obtain ⟨front, back, ha, hc⟩ := h
  rcases plain_or_group ha with hb | rfl
  · rw [hb]
    simp [Constructor.tree, Node.leavesAll, Node.leaves]
  · obtain ⟨l, cs, rfl⟩ := eq_of_licenses_group hc
    simp [Constructor.middle, Node.leavesAll, Node.leaves, ungrouped]

end Arithmetic

/-- Grammars that build nothing but trees conserve all tokens. The grammar of arithmetic conserves all but
the parentheses. -/
theorem Grammar.tokens_conserved :
    (∀ g : Grammar, g.IsPlain → g.Conserves id) ∧ Arithmetic.grammar.Conserves Arithmetic.ungrouped :=
  ⟨fun _ hg => conserves_of_step fun _ _ h => hg.leavesAll_step h,
    conserves_of_step fun _ _ h => Arithmetic.ungrouped_step h⟩

/-- A number that was reduced on the way to a failure is still there. -/
theorem Grammar.pairs_tokens_conserved :
    let rest : Pending := [.node (.tree "item" 0 [.terminal "1"]), .token ",", .token ";", .token "$"]
    pairs.IsPlain ∧ pairs.parseAll 9 "pair" ["1", ",", ";"] = some (.error ⟨"pair", rest⟩) ∧
      rest.leaves = ["1", ",", ";", "$"] := by
  intro rest
  have h : pairs.parseAll 9 "pair" ["1", ",", ";"] = some (.error ⟨"pair", rest⟩) := rfl
  exact ⟨isPlain_pairs, h, (tokens_conserved.1 pairs isPlain_pairs).remainder 9 "pair" _ _ h⟩

end LeftCorner
