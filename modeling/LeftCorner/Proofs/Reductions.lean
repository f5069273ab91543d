import LeftCorner.Grammar.Parse
import LeftCorner.Proofs.Derivation
import LeftCorner.Proofs.Outcome
import LeftCorner.Proofs.Productions
import Mathlib.Logic.Relation

/-!
# What a run does to the pending items

Pending items are read as nodes, a raw token as its terminal. One reduction replaces a run of neighbours by
the node that an alternative builds of them, provided that it licenses them as children. Whatever is parsed,
reduced, matched or completed, on success and on failure alike, the nodes before lead to the nodes after by
such reductions; there is nothing else that a run can do. Laws of runs follow from laws of one reduction.
-/

namespace LeftCorner

/-- The node that an item is read as. -/
def Item.toNode : Item → Node
  | token s => .terminal s
  | node n => n

@[simp] theorem Item.toNode_token (s : String) : (token s).toNode = .terminal s := rfl

@[simp] theorem Item.toNode_node (n : Node) : (node n).toNode = n := rfl

@[simp] theorem Item.toNode_ofMatched (n : Node) : (ofMatched n).toNode = n := by cases n <;> rfl

@[simp] theorem Item.leaves_toNode (i : Item) : i.toNode.leaves = i.leaves := by cases i <;> rfl

namespace Pending

def nodes (p : Pending) : List Node := p.map Item.toNode

@[simp] theorem nodes_nil : nodes [] = [] := rfl

@[simp] theorem nodes_cons (i : Item) (p : Pending) : nodes (i :: p) = i.toNode :: nodes p := rfl

@[simp] theorem nodes_restore (matched : List Node) (p : Pending) :
    nodes (restore matched p) = matched ++ nodes p := by
  simp [nodes, restore, Function.comp_def]

@[simp] theorem leavesAll_nodes (p : Pending) : Node.leavesAll p.nodes = p.leaves := by
  induction p with
  | nil => rfl
  | cons i p ih => simp [Node.leavesAll, ih]

end Pending

namespace Grammar

variable {g : Grammar}

/-- One reduction, wherever it takes place. -/
inductive Step (g : Grammar) : List Node → List Node → Prop where
  | reduce {rule a children} (front back : List Node) (ha : g.Offers rule a) (hc : a.Licenses children) :
      Step g (front ++ children ++ back) (front ++ a.build rule a.level children :: back)

abbrev Reduces (g : Grammar) : List Node → List Node → Prop := Relation.ReflTransGen g.Step

theorem Step.append_left {ns ms : List Node} (front : List Node) (h : g.Step ns ms) :
    g.Step (front ++ ns) (front ++ ms) := by
  obtain ⟨before, back, ha, hc⟩ := h
  simpa [List.append_assoc] using Step.reduce (front ++ before) back ha hc

theorem Reduces.append_left {ns ms : List Node} (front : List Node) (h : g.Reduces ns ms) :
    g.Reduces (front ++ ns) (front ++ ms) :=
  Relation.ReflTransGen.lift (front ++ ·) (fun _ _ => Step.append_left front) _ _ h

/-- Whatever one reduction keeps, any number of them keeps. -/
theorem Reduces.keeps {P : List Node → Prop} (hs : ∀ ns ms, g.Step ns ms → P ns → P ms)
    {ns ms : List Node} (h : g.Reduces ns ms) (hn : P ns) : P ms := by
  induction h with
  | refl => exact hn
  | tail _ h ih => exact hs _ _ h ih

end Grammar

/-- A parser of rules that only reduces, and that returns trees of the rule and level it was asked for. -/
def RuleParser.Sound (g : Grammar) (call : RuleParser) : Prop :=
  ∀ name bound p, (call name bound p).Meets
    (fun t rest => t.rule = name ∧ bound.admits t.level ∧ g.Reduces p.nodes (t.toNode :: rest.nodes))
    (fun rest => g.Reduces p.nodes rest.nodes) True

namespace Phrase

/-- A left corner goes back as it was. -/
theorem restore_corner {e : Phrase} {p q : Pending} {left : Item} (hl : e.corner? q = some (left, p)) (rest : Pending) :
    Pending.restore [left.toNode] rest = left :: rest := by
  obtain ⟨-, ⟨s, rfl⟩ | ⟨t, rfl⟩⟩ := corner?_eq_some hl
  · rfl
  · rfl

/-- Nodes that stand for a phrase, all at welcome levels. -/
def Fits (own : Option Bound) (e : Phrase) (nodes : List Node) : Prop :=
  ∃ parts, Derives own e parts ∧ parts.map Part.node = nodes ∧ ∀ part ∈ parts, part.Welcome

/-- Nodes that stand for a phrase of which the first was there before, and the others are at welcome levels. -/
def FitsBehind (own : Option Bound) (e : Phrase) (left : Node) (nodes : List Node) : Prop :=
  ∃ part parts, Derives own e (part :: parts) ∧ part.node = left ∧ left :: parts.map Part.node = nodes ∧
    ∀ part ∈ parts, part.Welcome

theorem Fits.following {own : Option Bound} {e : Phrase} {es : List Phrase} {nodes more : List Node}
    (h : Fits own e nodes) (hs : Fits own (sequence es) more) :
    Fits own (sequence (e :: es)) (nodes ++ more) := by
  obtain ⟨parts, hd, rfl, hw⟩ := h
  obtain ⟨parts', hd', rfl, hw'⟩ := hs
  refine ⟨parts ++ parts', .following hd hd', List.map_append, ?_⟩
  intro part hp
  rcases List.mem_append.mp hp with hp | hp
  · exact hw part hp
  · exact hw' part hp

theorem FitsBehind.following {own : Option Bound} {e : Phrase} {es : List Phrase} {left : Node}
    {nodes more : List Node} (h : FitsBehind own e left nodes) (hs : Fits own (sequence es) more) :
    FitsBehind own (sequence (e :: es)) left (nodes ++ more) := by
  obtain ⟨part, parts, hd, hl, rfl, hw⟩ := h
  obtain ⟨parts', hd', rfl, hw'⟩ := hs
  refine ⟨part, parts ++ parts', .following hd hd', hl, by simp, ?_⟩
  intro part hp
  rcases List.mem_append.mp hp with hp | hp
  · exact hw part hp
  · exact hw' part hp

variable {g : Grammar} {call : RuleParser}

/-- What a match or a failure from some pending items does to them. -/
abbrev Reads (g : Grammar) (p : Pending) (fits : List Node → Prop) (a : Attempt (List Node)) : Prop :=
  a.Meets (fun nodes rest => fits nodes ∧ g.Reduces p.nodes (nodes ++ rest.nodes))
    (fun rest => g.Reduces p.nodes rest.nodes) True

/-- A part of a sequence and the parts behind it. -/
theorem Reads.followedBy {p : Pending} {first fits : List Node → Prop} {second : List Node → Prop}
    {a : Attempt (List Node)} {next : Pending → Attempt (List Node)} (ha : Reads g p first a)
    (hn : ∀ rest, Reads g rest second (next rest))
    (hf : ∀ nodes more, first nodes → second more → fits (nodes ++ more)) :
    Reads g p fits (a.followedBy next) := by
  refine Attempt.Meets.followedBy ha fun nodes rest ⟨hm, hr⟩ => ?_
  refine (hn rest).imp (fun more rest' ⟨hm', hr'⟩ => ⟨hf nodes more hm hm', ?_⟩) fun rest' hr' => ?_
  · simpa using hr.trans (hr'.append_left nodes)
  · simpa using hr.trans (hr'.append_left nodes)

mutual

theorem reads_parse (hc : call.Sound g) : ∀ (e : Phrase) {own : Option Bound} {bound : Bound}
    (p : Pending), InForce own bound → Reads g p (Fits own e) (e.parse call bound p)
  | term t, own, bound, p, _ => by
    simp only [parse]
    split
    next token rest ht =>
      obtain ⟨rfl, ha⟩ := Pending.takeToken?_eq_some.mp ht
      exact ⟨⟨[⟨.terminal token, none⟩], .term ha, rfl, by simp [Part.Welcome]⟩, .refl⟩
    next => exact .refl
  | rule name, own, bound, p, ho => by
    refine Attempt.Meets.map ((hc name bound p).imp ?_ fun _ h => h)
    intro t rest h
    obtain ⟨rfl, hb, hr⟩ := h
    refine ⟨⟨[⟨t.toNode, own⟩], .rule, rfl, ?_⟩, hr⟩
    intro part hp b hb'
    obtain rfl := List.mem_singleton.mp hp
    rw [ho b hb']
    exact hb
  | bounded e b, own, bound, p, _ => by
    have he : Reads g p (Fits (some b) e) (e.parse call b p) := reads_parse hc e p (inForce_some.mpr rfl)
    refine he.imp ?_ fun _ h => h
    intro nodes rest h
    obtain ⟨⟨parts, hd, hn, hw⟩, hr⟩ := h
    exact ⟨⟨parts, .bounded hd, hn, hw⟩, hr⟩
  | choice es, own, bound, p, ho => reads_parseFirst hc es p ho
  | sequence es, own, bound, p, ho => reads_parseEach hc es p ho

theorem reads_parseFirst (hc : call.Sound g) : ∀ (es : List Phrase) {own : Option Bound} {bound : Bound}
    (p : Pending), InForce own bound → Reads g p (Fits own (choice es)) (parseFirst call es bound p)
  | [], _, _, _, _ => .refl
  | e :: es, own, bound, p, ho => by
    have he : Reads g p (Fits own (choice (e :: es))) (e.parse call bound p) := by
      refine (reads_parse hc e p ho).imp ?_ fun _ h => h
      intro nodes rest h
      obtain ⟨⟨parts, hd, hn, hw⟩, hr⟩ := h
      exact ⟨⟨parts, .choice (by simp) hd, hn, hw⟩, hr⟩
    apply Attempt.Meets.orElse he
    intro rest hr
    refine (reads_parseFirst hc es rest ho).imp ?_ fun _ h => hr.trans h
    intro nodes rest' h
    obtain ⟨⟨parts, hd, hn, hw⟩, hr'⟩ := h
    cases hd with
    | choice hf hd => exact ⟨⟨parts, .choice (List.mem_cons_of_mem _ hf) hd, hn, hw⟩, hr.trans hr'⟩

theorem reads_parseEach (hc : call.Sound g) : ∀ (es : List Phrase) {own : Option Bound} {bound : Bound}
    (p : Pending), InForce own bound → Reads g p (Fits own (sequence es)) (parseEach call es bound p)
  | [], _, _, _, _ => ⟨⟨[], .nothing, rfl, by simp⟩, .refl⟩
  | e :: es, _, _, p, ho => (reads_parse hc e p ho).followedBy (fun rest => reads_parseEach hc es rest ho)
      fun _ _ h hs => h.following hs

end

/-- Completing a phrase whose left corner was taken from some items reads nodes that stand for it. -/
theorem reads_complete (hc : call.Sound g) : ∀ (e : Phrase) {own : Option Bound} {bound : Bound}
    {p rest : Pending} {left : Item}, InForce own bound → e.corner? p = some (left, rest) →
      Reads g p (FitsBehind own e left.toNode) (e.complete call left bound rest)
  | term t, own, bound, p, rest, left, _, hl => by
    obtain ⟨⟨s, q⟩, ht, he⟩ := Option.map_eq_some_iff.mp hl
    obtain ⟨rfl, ha⟩ := Pending.takeToken?_eq_some.mp ht
    cases he
    exact ⟨⟨⟨.terminal s, none⟩, [], .term ha, rfl, rfl, by simp⟩, .refl⟩
  | rule name, own, bound, p, rest, left, _, hl => by
    obtain ⟨⟨t, q⟩, ht, he⟩ := Option.map_eq_some_iff.mp hl
    obtain ⟨rfl, hn⟩ := Pending.takeTree?_eq_some.mp ht
    cases he
    obtain rfl : t.rule = name := by simpa using hn
    exact ⟨⟨⟨t.toNode, own⟩, [], .rule, rfl, rfl, by simp⟩, .refl⟩
  | bounded e b, own, bound, p, rest, left, _, hl => by
    have he : Reads g p (FitsBehind (some b) e left.toNode) (e.complete call left b rest) :=
      reads_complete hc e (inForce_some.mpr rfl) hl
    refine he.imp ?_ fun _ h => h
    intro nodes rest' h
    obtain ⟨⟨part, parts, hd, h⟩, hr⟩ := h
    exact ⟨⟨part, parts, .bounded hd, h⟩, hr⟩
  | sequence (e :: es), own, bound, p, rest, left, ho, hl =>
    Reads.followedBy (reads_complete hc e ho hl) (fun rest => reads_parseEach hc es rest ho)
      fun _ _ h hs => h.following hs

end Phrase

/-- What completes a variant of an alternative are children that the alternative licenses. -/
theorem Alternative.licenses_complete {g : Grammar} {call : RuleParser} (hc : call.Sound g) {a : Alternative}
    {bound : Bound} {v : Phrase × Bound} (hv : v ∈ a.phrase.variants bound) {p rest : Pending} {left : Item}
    (hl : v.1.corner? p = some (left, rest)) :
    Phrase.Reads g p a.Licenses (v.1.complete call left v.2 rest) := by
  obtain ⟨own, ho, hderive⟩ := a.phrase.derives_of_variant (Phrase.inForce_none bound) hv
  refine (Phrase.reads_complete hc v.1 ho hl).imp ?_ fun _ h => h
  intro children rest' ⟨⟨part, parts, hp, hleft, hchildren, hw⟩, hr⟩
  exact ⟨⟨part :: parts, hderive _ hp, by rw [List.map_cons, hleft, hchildren], hw⟩, hr⟩

namespace Production

variable {call : RuleParser}

/-- What failures keep and every production that starts from it ends in, a list of productions ends in. -/
theorem meets_attemptFirst {ds : List Production} {onMatch : Node → Pending → Prop} {onFailure : Pending → Prop}
    {cutShort : Prop} (h : ∀ d ∈ ds, ∀ p, onFailure p → (d.attempt call p).Meets onMatch onFailure cutShort)
    {p : Pending} (hp : onFailure p) : (attemptFirst call ds p).Meets onMatch onFailure cutShort := by
  induction ds generalizing p with
  | nil => exact hp
  | cons d ds ih =>
    refine (h d List.mem_cons_self p hp).orElse fun rest hr => ?_
    exact ih (fun e he => h e (List.mem_cons_of_mem _ he)) hr

variable {g : Grammar}

/-- A production of an alternative leaves a node that the alternative builds of licensed children. -/
theorem reads_attempt (hc : call.Sound g) {rule : RuleName} {a : Alternative} {bound : Bound} {d : Production}
    (ha : g.Offers rule a) (hd : d ∈ a.productions bound rule) (p : Pending) :
    (d.attempt call p).Meets (fun n rest => g.Reduces p.nodes (n :: rest.nodes))
      (fun rest => g.Reduces p.nodes rest.nodes) True := by
  obtain ⟨v, hv, rfl⟩ := List.mem_map.mp hd
  unfold attempt
  split
  next => exact .refl
  next left rest hl =>
    refine Attempt.Meets.map ((a.licenses_complete hc hv hl).imp ?_ fun _ h => h)
    intro children rest' ⟨hlicensed, hr⟩
    simpa using hr.tail (.reduce [] rest'.nodes ha hlicensed)

end Production

namespace Grammar

theorem reads_reduce {g : Grammar} {call : RuleParser} (hc : call.Sound g) (target : RuleName)
    (bound : Bound) (p : Pending) :
    (g.reduce call target bound p).Meets (fun n rest => g.Reduces p.nodes (n :: rest.nodes))
      (fun rest => g.Reduces p.nodes rest.nodes) True := by
  refine Production.meets_attemptFirst (fun d hd q hq => ?_) .refl
  obtain ⟨-, a, ha, -, hv⟩ := mem_productions.mp hd
  refine (d.reads_attempt hc ha hv q).imp ?_ fun _ h => hq.trans h
  exact fun n rest h => hq.trans h

/-- A parse ends in what the parse after its first reduction ends in. If there is no reduction, it takes a tree of the
rule and level that were asked for, or fails. -/
theorem meets_parse_succ {g : Grammar} {n : Nat} {name : RuleName} {bound : Bound} {p : Pending}
    {onMatch : Tree → Pending → Prop} {onFailure : Pending → Prop} {cutShort : Prop}
    (h : (g.reduce (g.parse n) name bound p).Meets
      (fun node rest => (g.parse n name bound (.node node :: rest)).Meets onMatch onFailure cutShort)
      (fun rest => onFailure rest ∧
        ∀ t q, rest = .node t.toNode :: q → t.rule = name → bound.admits t.level → onMatch t q) cutShort) :
    (g.parse (n + 1) name bound p).Meets onMatch onFailure cutShort := by
  rw [parse]
  cases he : g.reduce (g.parse n) name bound p with
  | matched node rest =>
    rw [he] at h
    exact h
  | failed rest =>
    rw [he] at h
    dsimp only
    split
    next t q ht =>
      obtain ⟨rfl, hw⟩ := Pending.takeTree?_eq_some.mp ht
      simp only [Bool.and_eq_true, beq_iff_eq] at hw
      exact h.2 t q rfl hw.1 hw.2
    next => exact h.1
  | exhausted =>
    rw [he] at h
    exact h

/-- Parsing does nothing but reduce, and returns a tree of the rule and level that were asked for. The
induction is on the allowance; nested parses have less of it. -/
theorem sound_parse (g : Grammar) (n : Nat) : RuleParser.Sound g (g.parse n) := by
  induction n with
  | zero => exact fun _ _ _ => trivial
  | succ n ih =>
    intro name bound p
    refine meets_parse_succ ((reads_reduce ih name bound p).imp ?_ ?_)
    · intro node rest hr
      refine (ih name bound (.node node :: rest)).imp ?_ fun _ h => hr.trans h
      exact fun t rest' ⟨hn, hb, h⟩ => ⟨hn, hb, hr.trans h⟩
    · intro rest hr
      refine ⟨hr, ?_⟩
      rintro t q rfl hn hb
      exact ⟨hn, hb, hr⟩

end Grammar

end LeftCorner
