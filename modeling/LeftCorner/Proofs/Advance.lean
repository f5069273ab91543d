import LeftCorner.Proofs.Frame
import LeftCorner.Proofs.Settled

/-!
# What an attempt leaves pending

Pending items advance when a production matches somewhere in them, with all that is reduced in its course. An attempt
does nothing else to what is pending. After a failure the items have advanced from those before, and after a match they
would have if what was matched were put back. So an attempt in which nothing is reduced leaves all as it was.
-/

namespace LeftCorner

namespace Grammar

/-- A production for a target under a bound in force matches at the front, or behind it. -/
inductive Advance (g : Grammar) (inForce : Bound → Prop) : Pending → Pending → Prop where
  | front {target bound d p node rest} (hb : inForce bound) (hd : d ∈ g.productions target bound)
      (hm : d.attempt g.settled p = .matched node rest) : Advance g inForce p (.node node :: rest)
  | behind {i p q} (h : Advance g inForce p q) : Advance g inForce (i :: p) (i :: q)

/-- Any number of reductions one after another, wherever they take place. -/
abbrev Advances (g : Grammar) (inForce : Bound → Prop) : Pending → Pending → Prop :=
  Relation.ReflTransGen (g.Advance inForce)

/-- All bounds that are written in the rules are in force. -/
def BoundsIn (g : Grammar) (inForce : Bound → Prop) : Prop :=
  ∀ rule a, g.Offers rule a → a.phrase.BoundsIn inForce

variable {g : Grammar} {inForce : Bound → Prop} {p q : Pending}

theorem local_advances (g : Grammar) (inForce : Bound → Prop) : Pending.Local (g.Advances inForce) :=
  Pending.local_reflTransGen fun _ => .behind

theorem Advances.restore (ns : List Node) (h : g.Advances inForce p q) :
    g.Advances inForce (Pending.restore ns p) (Pending.restore ns q) :=
  (g.local_advances inForce).restore ns h

theorem eq_nil_of_advances (h : g.Advances inForce [] q) : q = [] := by
  induction h with
  | refl => rfl
  | tail _ h ih =>
    subst ih
    cases h with
    | front _ _ hm =>
      rw [Production.attempt_nil] at hm
      cases hm

end Grammar

/-- A parser of rules that does nothing to what is pending but to reduce under bounds in force. -/
def RuleParser.Advances (g : Grammar) (inForce : Bound → Prop) (call : RuleParser) : Prop :=
  ∀ name bound p, inForce bound → (call name bound p).Meets
    (fun t rest => g.Advances inForce p (.node t.toNode :: rest)) (fun rest => g.Advances inForce p rest) True

namespace Attempt

/-- Behind some nodes, what is pending has advanced. A failure puts these nodes back. -/
def Advances (g : Grammar) (inForce : Bound → Prop) (before : List Node) (p : Pending) : Attempt (List Node) → Prop :=
  Meets (fun nodes rest => ∃ more, nodes = before ++ more ∧ g.Advances inForce p (Pending.restore more rest))
    (fun rest => ∃ behind, rest = Pending.restore before behind ∧ g.Advances inForce p behind) True

end Attempt

namespace Phrase

variable {g : Grammar} {inForce : Bound → Prop} {call : RuleParser}

theorem advances_parse (hc : call.Advances g inForce) (e : Phrase) {bound : Bound} (p : Pending) (hb : inForce bound)
    (he : e.BoundsIn inForce) : (e.parse call bound p).Advances g inForce [] p :=
  confined_parse (g.local_advances inForce) hc e p hb he

theorem advances_parseEach (hc : call.Advances g inForce) (es : List Phrase) {bound : Bound} (p : Pending)
    (hb : inForce bound) (hes : ∀ own ∈ boundsOfEach es, inForce own) :
    (parseEach call es bound p).Advances g inForce [] p :=
  confined_parseEach (g.local_advances inForce) hc es p hb hes

/-- The left corner stays where it was. -/
theorem advances_complete (hc : call.Advances g inForce) (e : Phrase) {bound : Bound} {p q : Pending} {left : Item}
    (hb : inForce bound) (he : e.BoundsIn inForce) (hl : e.corner? q = some (left, p)) :
    (e.complete call left bound p).Advances g inForce [left.toNode] p :=
  confined_complete (g.local_advances inForce) hc e hb he hl

end Phrase

namespace Production

variable {g : Grammar} {inForce : Bound → Prop} {call : RuleParser} {target : RuleName} {bound : Bound}

theorem boundsIn_of_mem (hg : g.BoundsIn inForce) (hb : inForce bound) {d : Production}
    (hd : d ∈ g.productions target bound) : inForce d.bound ∧ d.phrase.BoundsIn inForce := by
  obtain ⟨-, a, ha, -, hv⟩ := Grammar.mem_productions.mp hd
  obtain ⟨-, -, -, hv⟩ := Alternative.mem_productions.mp hv
  exact Phrase.boundsIn_of_variant hb (hg _ a ha) hv

/-- A failure leaves the front in place. -/
theorem advances_attemptFirst (hs : call.Approximates g.settled) (hc : call.Advances g inForce)
    (hg : g.BoundsIn inForce) (hb : inForce bound) (p : Pending) :
    (attemptFirst call (g.productions target bound) p).Meets
      (fun node rest => g.Advances inForce p (.node node :: rest)) (Pending.ChangedBehind (g.Advances inForce) p)
      True := by
  refine confined_attemptFirst (g.local_advances inForce) (fun d hd q => ?_) p
  obtain ⟨hown, he⟩ := boundsIn_of_mem hg hb hd
  have ha := confined_attempt (g.local_advances inForce) hc hown he q
  cases h : d.attempt call q with
  | matched node rest =>
    have hm := (d.attempt_approximates hs q).eq (by simp [h])
    rw [h] at hm
    exact .single (.front hb hd hm.symm)
  | failed rest =>
    rw [h] at ha
    exact ha
  | exhausted => trivial

end Production

namespace Grammar

theorem parse_approximates_settled (g : Grammar) (n : Nat) : RuleParser.Approximates (g.parse n) g.settled := by
  intro name bound p
  by_cases h : g.parse n name bound p = .exhausted
  · exact .inl h
  · exact .inr (parse_eq_settled h)

/-- The induction is on the allowance; nested parses have less of it. -/
theorem advances_parse {g : Grammar} {inForce : Bound → Prop} (hg : g.BoundsIn inForce) (n : Nat) :
    RuleParser.Advances g inForce (g.parse n) := by
  induction n with
  | zero => exact fun _ _ _ _ => trivial
  | succ n ih =>
    intro name bound p hb
    exact confined_parse_succ (g.local_advances inForce)
      (Production.advances_attemptFirst (g.parse_approximates_settled n) ih hg hb p) fun q => ih name bound q hb

end Grammar

end LeftCorner
