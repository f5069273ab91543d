import LeftCorner.Proofs.Licence

/-!
# Bounds on left operands

The left operand of a reduction is a tree that stands at the front already. It is taken by the name of its rule, and a
bound on it is not asked. So the bound holds only where it turns nothing away: if it admits all levels that the rule is
defined at, every left operand keeps it. A rule that is defined at several levels shows the difference. Comparisons
that want tighter operands on both sides do not get them on the left.
-/

namespace LeftCorner

/-- Every tree of an alternative that begins with a bounded rule has a first child that the bound admits. -/
inductive Node.LeftBounded (g : Grammar) : Node → Prop where
  | terminal (token : String) : LeftBounded g (.terminal token)
  | tree {rule level children}
      (hl : ∀ a name own es, g.Offers rule a → a.level = level →
        a.phrase = .sequence (.bounded (.rule name) own :: es) → a.Licenses children →
        ∀ c ∈ children.head?, own.admits c.level)
      (hc : ∀ c ∈ children, LeftBounded g c) : LeftBounded g (.tree rule level children)

namespace Grammar

/-- The bound on a left operand admits all levels that the rule of the operand is defined at. -/
def AdmitsLeftOperands (g : Grammar) : Prop :=
  ∀ rule a name own es, g.Offers rule a → a.phrase = .sequence (.bounded (.rule name) own :: es) →
    ∀ b, g.Offers name b → own.admits b.level

end Grammar

variable {g : Grammar}

/-- A left operand is a tree of the rule that stands there. -/
theorem Alternative.Licenses.head?_eq {a : Alternative} {name : RuleName} {own : Bound} {es : List Phrase}
    {children : List Node} (h : a.Licenses children) (ha : a.phrase = .sequence (.bounded (.rule name) own :: es)) :
    ∃ level operands, children.head? = some (.tree name level operands) := by
  obtain ⟨parts, hd, rfl, -⟩ := h
  rw [ha] at hd
  obtain ⟨first, more, rfl, hfirst, -⟩ := Phrase.derives_sequence_cons.mp hd
  obtain ⟨level, operands, rfl⟩ := Phrase.derives_rule.mp (Phrase.derives_bounded.mp hfirst)
  exact ⟨level, operands, rfl⟩

theorem Node.Licensed.exists_offers {name : RuleName} {level : Level} {children : List Node}
    (h : Node.Licensed g (.tree name level children)) : ∃ a, g.Offers name a ∧ a.level = level := by
  cases h with
  | tree ha _ _ => exact ⟨_, ha, rfl⟩

theorem Node.Licensed.leftBounded (hb : g.AdmitsLeftOperands) {n : Node} (h : n.Licensed g) : n.LeftBounded g := by
  induction h with
  | terminal token => exact .terminal token
  | @tree rule a children ha hl hc ih =>
    refine .tree ?_ ih
    intro a' name own es ha' _ hp hl' c hhead
    obtain ⟨level, operands, he⟩ := hl'.head?_eq hp
    obtain rfl : Node.tree name level operands = c := by simpa [he] using hhead
    obtain ⟨b, ho, hlevel⟩ := (hc _ (List.mem_of_mem_head? hhead)).exists_offers
    have hadmits := hb rule a' name own es ha' hp b ho
    rwa [hlevel] at hadmits

namespace Grammar

/-- Where the bounds on left operands turn no alternative away, all trees that a parse of raw tokens returns or leaves
pending keep them. -/
theorem parse_leftBounded (hg : g.IsPlain) (hb : g.AdmitsLeftOperands) (n : Nat) (name : RuleName) (bound : Bound)
    (tokens : List String) : (g.parse n name bound (tokens.map .token)).Meets
      (fun t rest => t.toNode.LeftBounded g ∧ ∀ i ∈ rest, i.toNode.LeftBounded g)
      (fun rest => ∀ i ∈ rest, i.toNode.LeftBounded g) True := by
  have hraw := Node.licensed_tokens g tokens
  refine (g.sound_parse n name bound _).imp ?_ fun rest hr => ?_
  · intro t rest h
    obtain ⟨-, -, hr⟩ := h
    have hall := hg.licensed_reduces hr hraw
    refine ⟨(hall _ (by simp)).leftBounded hb, fun i hi => ?_⟩
    exact (hall _ (List.mem_cons_of_mem _ (List.mem_map_of_mem hi))).leftBounded hb
  · have hall := hg.licensed_reduces hr hraw
    exact fun i hi => (hall _ (List.mem_map_of_mem hi)).leftBounded hb

/-- A letter on either side of an equality sign, for which a rule stands that has to bind more tightly. -/
def equality (side : RuleName) : Phrase := (Phrase.rule side).tighterThan 10 + "=" + (Phrase.rule side).tighterThan 10

/-- Equations between letters. -/
def equations : Grammar :=
  ofDefinitions "equations" [⟨"letter", .plain 0 (.literal "n")⟩, ⟨"equation", .plain 10 (equality "letter")⟩]

theorem equations_parse_leftBounded :
    let equation : Tree := ⟨"equation", 10,
      [.tree "letter" 0 [.terminal "n"], .terminal "=", .tree "letter" 0 [.terminal "n"]]⟩
    equations.IsPlain ∧ equations.AdmitsLeftOperands ∧
      equations.parse 9 "equation" .standard (["n", "=", "n", "$"].map .token) = .matched equation [.token "$"] ∧
      equation.toNode.LeftBounded equations := by
  intro equation
  have hg : equations.IsPlain := isPlain_ofDefinitions (by simp [Alternative.plain])
  have hb : equations.AdmitsLeftOperands := by
    intro rule a name own es ha hp b ho
    have ha := offers_ofDefinitions.mp ha
    have ho := offers_ofDefinitions.mp ho
    simp only [List.mem_cons, List.not_mem_nil, or_false] at ha ho
    rcases ha with ha | ha
    · cases ha
      cases hp
    · cases ha
      cases hp
      rcases ho with ho | ho
      · cases ho
        rfl
      · exact absurd (congrArg Definition.rule ho) (by simp)
  have h : equations.parse 9 "equation" .standard (["n", "=", "n", "$"].map .token) =
      .matched equation [.token "$"] := rfl
  have hl := parse_leftBounded hg hb 9 "equation" .standard ["n", "=", "n", "$"]
  rw [h] at hl
  exact ⟨hg, hb, h, hl.1⟩

/-- Letters and comparisons under one name. The sides of a comparison have to bind more tightly than it does. -/
def comparisons : Grammar :=
  ofDefinitions "comparisons" [⟨"expr", .plain 0 (.literal "n")⟩, ⟨"expr", .plain 10 (equality "expr")⟩]

theorem licenses_equality {side : RuleName} {build : Constructor} {level l l' : Level} {cs cs' : List Node}
    (hr : l' < 10) : Alternative.Licenses ⟨level, equality side, build⟩
      [.tree side l cs, .terminal "=", .tree side l' cs'] := by
  refine ⟨[⟨.tree side l cs, some (.below 10)⟩, ⟨.terminal "=", none⟩, ⟨.tree side l' cs', some (.below 10)⟩], ?_, rfl, ?_⟩
  · exact Phrase.derives_triple.mpr ⟨[_], [_], [_], rfl, .bounded .rule, Phrase.derives_literal.mpr rfl, .bounded .rule⟩
  · intro part hp
    rcases List.mem_pair.mp hp with rfl | rfl
    · simp [Part.Welcome]
    · simpa [Part.Welcome, Node.level] using hr

/-- The left side of the outer comparison is a comparison. -/
theorem comparisons_left_loose :
    let letter : Node := .tree "expr" 0 [.terminal "n"]
    let inner : Node := .tree "expr" 10 [letter, .terminal "=", letter]
    let outer : Tree := ⟨"expr", 10, [inner, .terminal "=", letter]⟩
    comparisons.IsPlain ∧
      comparisons.parse 9 "expr" .standard (["n", "=", "n", "=", "n", "$"].map .token) =
        .matched outer [.token "$"] ∧
      ¬ outer.toNode.LeftBounded comparisons := by
  intro letter inner outer
  refine ⟨isPlain_ofDefinitions (by simp [Alternative.plain]), rfl, ?_⟩
  intro h
  cases h with
  | tree hl _ =>
    have ha : comparisons.Offers "expr" (.plain 10 (equality "expr")) := offers_ofDefinitions.mpr (by simp)
    have hadmits := hl _ "expr" (.below 10) _ ha rfl rfl (licenses_equality (by decide)) inner rfl
    exact absurd hadmits (by decide)

end Grammar

end LeftCorner
