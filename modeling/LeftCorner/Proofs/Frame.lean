import LeftCorner.Grammar.Parse
import LeftCorner.Proofs.Reductions

/-!
# What changes behind the front

An attempt hands what is pending to a parser of rules, from some item on, and does nothing to it otherwise but to take
items off and to put them back. So if a parser of rules makes no changes but those of some kind, an attempt makes no
others, provided that changes of this kind may follow upon one another and may take place behind other items. The front
is not changed at all: after a failure it is the item it was, and after a match it is the first that was matched.

Which bounds are in force is left open by a predicate, so that the parser of rules can be confined to some of them.
-/

namespace LeftCorner

namespace Phrase

mutual

/-- The bounds that are written in a phrase. -/
def bounds : Phrase → List Bound
  | term _ | rule _ => []
  | bounded e own => own :: bounds e
  | choice es | sequence es => boundsOfEach es

def boundsOfEach : List Phrase → List Bound
  | [] => []
  | e :: es => bounds e ++ boundsOfEach es

end

/-- All bounds that are written in a phrase are in force. -/
abbrev BoundsIn (inForce : Bound → Prop) (e : Phrase) : Prop := ∀ bound ∈ e.bounds, inForce bound

variable {inForce : Bound → Prop} {e : Phrase} {es : List Phrase}

theorem boundsIn_cons : (∀ bound ∈ boundsOfEach (e :: es), inForce bound) ↔
    e.BoundsIn inForce ∧ ∀ bound ∈ boundsOfEach es, inForce bound := by
  simp [boundsOfEach, or_imp, forall_and]

theorem boundsIn_of_mem (h : ∀ bound ∈ boundsOfEach es, inForce bound) (he : e ∈ es) : e.BoundsIn inForce := by
  induction es with
  | nil => cases he
  | cons f es ih =>
    obtain ⟨hf, hes⟩ := boundsIn_cons.mp h
    rcases List.mem_cons.mp he with rfl | he
    · exact hf
    · exact ih hes he

theorem boundsIn_of_variant {bound : Bound} {v : Phrase × Bound} (hb : inForce bound) (he : e.BoundsIn inForce)
    (hv : v ∈ e.variants bound) : inForce v.2 ∧ v.1.BoundsIn inForce := by
  refine of_variant (P := fun f b => inForce b ∧ f.BoundsIn inForce) ?_ ?_ hv ⟨hb, he⟩
  · intro f own _ ⟨_, hf⟩
    exact List.forall_mem_cons.mp hf
  · intro es b ⟨hb, hes⟩ f hf
    exact ⟨hb, boundsIn_of_mem hes hf⟩

end Phrase

namespace Pending

/-- Changes of a kind that may follow upon one another, and that may take place behind other items. -/
structure Local (change : Pending → Pending → Prop) : Prop where
  refl : ∀ p, change p p
  trans : ∀ {p q r}, change p q → change q r → change p r
  behind : ∀ (i : Item) {p q}, change p q → change (i :: p) (i :: q)

/-- Any number of steps is such a change if each step may take place behind other items. -/
theorem local_reflTransGen {step : Pending → Pending → Prop} (h : ∀ i {p q}, step p q → step (i :: p) (i :: q)) :
    Local (Relation.ReflTransGen step) where
  refl _ := .refl
  trans := Relation.ReflTransGen.trans
  behind i _ _ := Relation.ReflTransGen.lift (i :: ·) (fun _ _ => h i) _ _

/-- The front is as it was, and what stands behind it has changed. -/
def ChangedBehind (change : Pending → Pending → Prop) (p rest : Pending) : Prop :=
  rest.head? = p.head? ∧ change p.tail rest.tail

variable {change : Pending → Pending → Prop} {p q r : Pending}

theorem Local.restore (h : Local change) (ns : List Node) (hp : change p q) :
    change (Pending.restore ns p) (Pending.restore ns q) := by
  induction ns with
  | nil => exact hp
  | cons n ns ih => exact h.behind _ ih

theorem changedBehind_cons {i : Item} :
    ChangedBehind change (i :: p) q ↔ ∃ behind, q = i :: behind ∧ change p behind := by
  constructor
  · intro ⟨hf, hb⟩
    cases q with
    | nil => cases hf
    | cons j q =>
      cases hf
      exact ⟨q, rfl, hb⟩
  · rintro ⟨behind, rfl, hb⟩
    exact ⟨rfl, hb⟩

theorem ChangedBehind.trans (hl : Local change) (h : ChangedBehind change p q) (h' : ChangedBehind change q r) :
    ChangedBehind change p r :=
  ⟨h'.1.trans h.1, hl.trans h.2 h'.2⟩

theorem ChangedBehind.toChange (hl : Local change) (h : ChangedBehind change p q) : change p q := by
  cases p with
  | nil =>
    obtain rfl := List.head?_eq_none_iff.mp h.1
    exact hl.refl []
  | cons i p =>
    obtain ⟨behind, rfl, hb⟩ := changedBehind_cons.mp h
    exact hl.behind i hb

end Pending

/-- A parser of rules that makes no changes but those of a kind under the bounds in force. -/
def RuleParser.Confined (change : Pending → Pending → Prop) (inForce : Bound → Prop) (call : RuleParser) : Prop :=
  ∀ name bound p, inForce bound → (call name bound p).Meets
    (fun t rest => change p (.node t.toNode :: rest)) (fun rest => change p rest) True

namespace Attempt

/-- Behind some nodes, what is pending has changed. A failure puts these nodes back. -/
def Confined (change : Pending → Pending → Prop) (before : List Node) (p : Pending) : Attempt (List Node) → Prop :=
  Meets (fun nodes rest => ∃ more, nodes = before ++ more ∧ change p (Pending.restore more rest))
    (fun rest => ∃ behind, rest = Pending.restore before behind ∧ change p behind) True

variable {change : Pending → Pending → Prop} {before : List Node} {p q : Pending} {a : Attempt (List Node)}
  {next : Pending → Attempt (List Node)}

theorem confined_nothing (hl : Pending.Local change) (before : List Node) (p : Pending) :
    (matched before p).Confined change before p :=
  ⟨[], by simp, hl.refl p⟩

theorem Confined.of_change (hl : Pending.Local change) (h : a.Confined change before q) (hq : change p q) :
    a.Confined change before p := by
  refine Meets.imp h ?_ ?_
  · intro nodes rest ⟨more, hn, hc⟩
    exact ⟨more, hn, hl.trans hq hc⟩
  · intro rest ⟨behind, hr, hc⟩
    exact ⟨behind, hr, hl.trans hq hc⟩

theorem Confined.orElse (hl : Pending.Local change) (ha : a.Confined change [] p)
    (hn : ∀ rest, (next rest).Confined change [] rest) : (a.orElse next).Confined change [] p := by
  refine Meets.orElse ha fun rest ⟨behind, hr, hp⟩ => ?_
  rw [Pending.restore_nil] at hr
  subst hr
  exact (hn rest).of_change hl hp

theorem Confined.followedBy (hl : Pending.Local change) (ha : a.Confined change before p)
    (hn : ∀ rest, (next rest).Confined change [] rest) : (a.followedBy next).Confined change before p := by
  refine Meets.followedBy ha fun nodes rest ⟨more, hnodes, hp⟩ => ?_
  refine Meets.imp (hn rest) ?_ ?_
  · intro more' rest' ⟨last, hlast, hrest⟩
    refine ⟨more ++ last, by simp [hnodes, hlast], ?_⟩
    rw [Pending.restore_append]
    exact hl.trans hp (hl.restore more hrest)
  · intro rest' ⟨behind, hr, hrest⟩
    refine ⟨Pending.restore more rest', by rw [hnodes, Pending.restore_append], ?_⟩
    rw [hr]
    exact hl.trans hp (hl.restore more hrest)

end Attempt

variable {change : Pending → Pending → Prop} {inForce : Bound → Prop} {call : RuleParser}

namespace Phrase

mutual

theorem confined_parse (hl : Pending.Local change) (hc : call.Confined change inForce) : ∀ (e : Phrase) {bound : Bound}
    (p : Pending), inForce bound → e.BoundsIn inForce → (e.parse call bound p).Confined change [] p
  | term t, _, p, _, _ => by
    rw [parse]
    split
    next token rest ht =>
      obtain ⟨rfl, -⟩ := Pending.takeToken?_eq_some.mp ht
      exact ⟨[.terminal token], rfl, hl.refl _⟩
    next => exact ⟨p, rfl, hl.refl p⟩
  | rule name, bound, p, hb, _ => by
    refine Attempt.Meets.map ((hc name bound p hb).imp ?_ ?_)
    · exact fun t rest h => ⟨[t.toNode], rfl, h⟩
    · exact fun rest h => ⟨rest, rfl, h⟩
  | bounded e own, _, p, _, he => by
    obtain ⟨hown, he⟩ := List.forall_mem_cons.mp he
    exact confined_parse hl hc e p hown he
  | choice es, _, p, hb, he => confined_parseFirst hl hc es p hb he
  | sequence es, _, p, hb, he => confined_parseEach hl hc es p hb he

theorem confined_parseFirst (hl : Pending.Local change) (hc : call.Confined change inForce) :
    ∀ (es : List Phrase) {bound : Bound} (p : Pending), inForce bound → (∀ own ∈ boundsOfEach es, inForce own) →
      (parseFirst call es bound p).Confined change [] p
  | [], _, p, _, _ => ⟨p, rfl, hl.refl p⟩
  | e :: es, _, p, hb, hes => by
    obtain ⟨he, hes⟩ := boundsIn_cons.mp hes
    exact (confined_parse hl hc e p hb he).orElse hl fun rest => confined_parseFirst hl hc es rest hb hes

theorem confined_parseEach (hl : Pending.Local change) (hc : call.Confined change inForce) :
    ∀ (es : List Phrase) {bound : Bound} (p : Pending), inForce bound → (∀ own ∈ boundsOfEach es, inForce own) →
      (parseEach call es bound p).Confined change [] p
  | [], _, p, _, _ => Attempt.confined_nothing hl [] p
  | e :: es, _, p, hb, hes => by
    obtain ⟨he, hes⟩ := boundsIn_cons.mp hes
    exact (confined_parse hl hc e p hb he).followedBy hl fun rest => confined_parseEach hl hc es rest hb hes

end

/-- The left corner stays where it was. -/
theorem confined_complete (hl : Pending.Local change) (hc : call.Confined change inForce) : ∀ (e : Phrase)
    {bound : Bound} {p q : Pending} {left : Item}, inForce bound → e.BoundsIn inForce → e.corner? q = some (left, p) →
      (e.complete call left bound p).Confined change [left.toNode] p
  | term t, _, p, q, left, _, _, hleft => by
    obtain ⟨⟨s, q⟩, -, he⟩ := Option.map_eq_some_iff.mp hleft
    cases he
    exact Attempt.confined_nothing hl _ p
  | rule name, _, p, q, left, _, _, hleft => by
    obtain ⟨⟨t, q⟩, -, he⟩ := Option.map_eq_some_iff.mp hleft
    cases he
    exact Attempt.confined_nothing hl _ p
  | bounded e own, _, p, q, left, _, he, hleft => by
    obtain ⟨hown, he⟩ := List.forall_mem_cons.mp he
    exact confined_complete hl hc e hown he hleft
  | sequence (e :: es), _, p, q, left, hb, hes, hleft => by
    obtain ⟨he, hes⟩ := boundsIn_cons.mp hes
    exact (confined_complete hl hc e hb he hleft).followedBy hl fun rest => confined_parseEach hl hc es rest hb hes

end Phrase

namespace Production

/-- A match starts at the front, which becomes its first child. A failure leaves the front in place. -/
theorem confined_attempt (hl : Pending.Local change) (hc : call.Confined change inForce) {d : Production}
    (hb : inForce d.bound) (he : d.phrase.BoundsIn inForce) (p : Pending) : (d.attempt call p).Meets
      (fun node rest => ∃ i q more, p = i :: q ∧ node = d.build d.rule d.level (i.toNode :: more) ∧
        change q (Pending.restore more rest))
      (Pending.ChangedBehind change p) True := by
  unfold attempt
  split
  next => exact ⟨rfl, hl.refl _⟩
  next left q hleft =>
    obtain ⟨rfl, -⟩ := Phrase.corner?_eq_some hleft
    refine Attempt.Meets.map (Attempt.Meets.imp (Phrase.confined_complete hl hc d.phrase hb he hleft) ?_ ?_)
    · rintro _ rest ⟨more, rfl, hm⟩
      exact ⟨left, q, more, rfl, rfl, hm⟩
    · intro rest ⟨behind, hr, hm⟩
      rw [Phrase.restore_corner hleft] at hr
      exact Pending.changedBehind_cons.mpr ⟨behind, hr, hm⟩

/-- Whatever parses the rules, a match takes the front for its first child, and a failure leaves the front in place. -/
theorem attempt_front (d : Production) (call : RuleParser) (p : Pending) : (d.attempt call p).Meets
    (fun node _ => ∃ i q more, p = i :: q ∧ node = d.build d.rule d.level (i.toNode :: more))
    (fun rest => rest.head? = p.head?) True := by
  -- Where every change is allowed, every parser of rules is confined.
  have hl : Pending.Local fun _ _ => True := ⟨fun _ => trivial, fun _ _ => trivial, fun _ _ _ _ => trivial⟩
  have hc : call.Confined (fun _ _ => True) fun _ => True := by
    intro name bound q _
    cases call name bound q <;> trivial
  refine (confined_attempt hl hc trivial (fun _ _ => trivial) p).imp ?_ fun rest h => h.1
  exact fun node rest ⟨i, q, more, hp, hn, _⟩ => ⟨i, q, more, hp, hn⟩

/-- What the failures keep behind the front is there for the match. -/
theorem confined_attemptFirst (hl : Pending.Local change) {ds : List Production} (h : ∀ d ∈ ds, ∀ p,
      (d.attempt call p).Meets (fun node rest => change p (.node node :: rest)) (Pending.ChangedBehind change p) True)
    (p : Pending) : (attemptFirst call ds p).Meets (fun node rest => change p (.node node :: rest))
      (Pending.ChangedBehind change p) True := by
  refine meets_attemptFirst (fun d hd q hq => ?_) ⟨rfl, hl.refl _⟩
  refine (h d hd q).imp ?_ fun _ hr => hq.trans hl hr
  exact fun node rest hr => hl.trans (hq.toChange hl) hr

end Production

namespace Grammar

/-- Parsing makes no changes but those of its first reduction and those that it goes on with. -/
theorem confined_parse_succ (hl : Pending.Local change) {g : Grammar} {n : Nat} {name : RuleName} {bound : Bound}
    {p : Pending} (hr : (g.reduce (g.parse n) name bound p).Meets (fun node rest => change p (.node node :: rest))
      (Pending.ChangedBehind change p) True)
    (hn : ∀ q, (g.parse n name bound q).Meets (fun t rest => change q (.node t.toNode :: rest)) (change q) True) :
    (g.parse (n + 1) name bound p).Meets (fun t rest => change p (.node t.toNode :: rest)) (change p) True := by
  refine meets_parse_succ (hr.imp ?_ ?_)
  · intro node rest hm
    refine (hn (.node node :: rest)).imp ?_ fun _ hq => hl.trans hm hq
    exact fun t rest' hq => hl.trans hm hq
  · intro rest hf
    have hc : change p rest := hf.toChange hl
    refine ⟨hc, ?_⟩
    rintro t q rfl - -
    exact hc

end Grammar

end LeftCorner
