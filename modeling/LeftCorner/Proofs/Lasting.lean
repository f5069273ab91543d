import LeftCorner.Proofs.Advance

/-!
# Outcomes that last

An attempt may be made again after the items it left pending have advanced by reductions under the same bound. Its
outcome lasts if a failure comes again and changes nothing, and a match comes again where what was matched still
stands, and is such a failure where it does not.

If the outcomes of a parser of rules last, so do those of every phrase in which nothing but single tokens is chosen.
Other choices are left out because an option may fail only until a later option has reduced what stands in its way.
-/

namespace LeftCorner

/-- A phrase in which nothing but single tokens is chosen. -/
inductive Phrase.Determined : Phrase → Prop where
  | term {t} : Determined (term t)
  | rule {name} : Determined (rule name)
  | bounded {e own} (h : Determined e) : Determined (bounded e own)
  | choice {es} (h : ∀ e ∈ es, ∃ t, e = term t) : Determined (choice es)
  | sequence {es} (h : ∀ e ∈ es, Determined e) : Determined (sequence es)

/-- Either the front is as it was, or a node stands there. -/
theorem Grammar.Advances.front_or_node {g : Grammar} {inForce : Bound → Prop} {i : Item} {p q : Pending}
    (h : g.Advances inForce (i :: p) q) :
    (∃ rest, q = i :: rest ∧ g.Advances inForce p rest) ∨ ∃ n rest, q = .node n :: rest := by
  induction h with
  | refl => exact .inl ⟨p, rfl, .refl⟩
  | tail _ h ih =>
    cases h with
    | front _ _ _ => exact .inr ⟨_, _, rfl⟩
    | behind h =>
      rcases ih with ⟨rest, he, ha⟩ | ⟨n, rest, he⟩
      · cases he
        exact .inl ⟨_, rfl, ha.tail h⟩
      · cases he
        exact .inr ⟨n, _, rfl⟩

/-- A raw token has always stood where it stands. -/
theorem Grammar.Advances.of_token {g : Grammar} {inForce : Bound → Prop} {s : String} {p rest : Pending}
    (h : g.Advances inForce p (.token s :: rest)) : ∃ q, p = .token s :: q := by
  cases p with
  | nil => cases Grammar.eq_nil_of_advances h
  | cons i p =>
    rcases h.front_or_node with ⟨_, he, -⟩ | ⟨_, _, he⟩
    · cases he
      exact ⟨p, rfl⟩
    · cases he

section Lasting

variable (g : Grammar) (bound : Bound) (before : List Node) (run : Pending → Attempt (List Node))

/-- However some items advance, a run fails and changes nothing. The nodes before go back. -/
def FailsFrom (p : Pending) : Prop :=
  ∀ q, g.Advances (· = bound) p q → run q = .failed (Pending.restore before q)

/-- However the items advance of which nodes were matched, a run matches the same nodes if they stand there. Otherwise
it fails and changes nothing. The items behind the nodes may have advanced before. -/
def RepeatsFrom (more : List Node) (rest : Pending) : Prop :=
  ∀ rest' q, g.Advances (· = bound) rest rest' → g.Advances (· = bound) (Pending.restore more rest') q →
    run q = .failed (Pending.restore before q) ∨
      ∃ last, q = Pending.restore more last ∧ g.Advances (· = bound) rest' last ∧
        run q = .matched (before ++ more) last

/-- An outcome that later runs have again, unless they fail. -/
def Attempt.Lasts : Attempt (List Node) → Prop :=
  Attempt.Meets (fun nodes rest => ∃ more, nodes = before ++ more ∧ RepeatsFrom g bound before run more rest)
    (fun rest => ∃ behind, rest = Pending.restore before behind ∧ FailsFrom g bound before run behind) True

end Lasting

namespace Attempt

variable {g : Grammar} {bound : Bound} {before : List Node} {p : Pending} {run run' : Pending → Attempt (List Node)}

/-- A run that matches a raw token at the front if that is accepted, and otherwise fails and changes nothing. -/
structure TakesOne (accepts : String → Prop) (run : Pending → Attempt (List Node)) : Prop where
  onToken : ∀ s q, accepts s → run (.token s :: q) = .matched [.terminal s] q
  otherwise : ∀ q, (∀ s rest, q = .token s :: rest → ¬ accepts s) → run q = .failed q

theorem TakesOne.orElse {accepts accepts' : String → Prop} (h : TakesOne accepts run) (h' : TakesOne accepts' run') :
    TakesOne (fun s => accepts s ∨ accepts' s) fun p => (run p).orElse run' where
  onToken := by
    intro s q hs
    by_cases ha : accepts s
    · rw [h.onToken s q ha, orElse_matched]
    · have hf : run (.token s :: q) = .failed (.token s :: q) := by
        refine h.otherwise _ ?_
        rintro _ _ ⟨rfl, rfl⟩
        exact ha
      rw [hf, orElse_failed, h'.onToken s q (hs.resolve_left ha)]
  otherwise := by
    intro q hq
    rw [h.otherwise q fun s rest he hs => hq s rest he (.inl hs), orElse_failed]
    exact h'.otherwise q fun s rest he hs => hq s rest he (.inr hs)

theorem lasts_nothing (h : ∀ q, run q = .matched before q) : (matched before p).Lasts g bound before run := by
  refine ⟨[], by simp, fun rest q _ hq => .inr ⟨q, rfl, hq, ?_⟩⟩
  rw [h, List.append_nil]

theorem TakesOne.lasts {accepts : String → Prop} (h : TakesOne accepts run) (h' : TakesOne accepts run')
    (p : Pending) : (run p).Lasts g bound [] run' := by
  by_cases hp : ∃ s rest, p = .token s :: rest ∧ accepts s
  · obtain ⟨s, rest, rfl, hs⟩ := hp
    rw [h.onToken s rest hs]
    refine ⟨[.terminal s], rfl, fun rest' q _ hq => ?_⟩
    rcases hq.front_or_node with ⟨last, rfl, hl⟩ | ⟨n, last, rfl⟩
    · exact .inr ⟨last, rfl, hl, h'.onToken s last hs⟩
    · exact .inl (h'.otherwise _ (by simp))
  · rw [h.otherwise p fun s rest he hs => hp ⟨s, rest, he, hs⟩]
    refine ⟨p, rfl, fun q hq => h'.otherwise q fun s rest he hs => ?_⟩
    rw [he] at hq
    obtain ⟨r, rfl⟩ := hq.of_token
    exact hp ⟨s, r, rfl, hs⟩

/-- If the first part of a sequence is matched again, the second starts from items that have advanced from those it
started from before, or has been matched there and has the same items to match. -/
theorem Lasts.followedBy {a : Attempt (List Node)} {next : Pending → Attempt (List Node)}
    (hl : a.Lasts g bound before run) (hn : ∀ rest, (next rest).Advances g (· = bound) [] rest)
    (hl' : ∀ rest, (next rest).Lasts g bound [] run') :
    (a.followedBy next).Lasts g bound before fun q => (run q).followedBy run' := by
  cases a with
  | matched nodes rest =>
    obtain ⟨more, rfl, hrepeats⟩ := hl
    have hnext := hn rest
    have hlast := hl' rest
    cases he : next rest with
    | matched last rest' =>
      rw [he] at hnext hlast
      obtain ⟨_, rfl, hnext⟩ := hnext
      obtain ⟨last, rfl, hlast⟩ := hlast
      rw [followedBy_of_matched he]
      refine ⟨more ++ last, List.append_assoc _ _ _, fun r q hr hq => ?_⟩
      rw [Pending.restore_append] at hq
      -- Put back, the match of the second part is what the items behind that of the first have advanced to.
      rcases hrepeats _ q (hnext.trans (hr.restore last)) hq with hf | ⟨behind, rfl, hb, hm⟩
      · exact .inl (by simp only [hf, followedBy_failed])
      rcases hlast r behind hr hb with hf | ⟨behind, rfl, hb, hm'⟩
      · exact .inl (by simp only [hm, followedBy_of_failed hf, Pending.restore_append, Pending.restore_nil])
      · refine .inr ⟨behind, (Pending.restore_append _ _ _).symm, hb, ?_⟩
        simp only [hm, followedBy_of_matched hm', List.nil_append, List.append_assoc]
    | failed rest' =>
      rw [he] at hnext hlast
      obtain ⟨_, rfl, hnext⟩ := hnext
      obtain ⟨behind, hr, hfails⟩ := hlast
      obtain rfl : rest' = behind := hr
      rw [followedBy_of_failed he]
      refine ⟨Pending.restore more rest', Pending.restore_append _ _ _, fun q hq => ?_⟩
      rcases hrepeats rest' q hnext hq with hf | ⟨last, rfl, hb, hm⟩
      · simp only [hf, followedBy_failed]
      · simp only [hm, followedBy_of_failed (hfails last hb), Pending.restore_append, Pending.restore_nil]
    | exhausted =>
      rw [Attempt.followedBy, he]
      trivial
  | failed rest =>
    obtain ⟨behind, hr, hf⟩ := hl
    exact ⟨behind, hr, fun q hq => by simp only [hf q hq, followedBy_failed]⟩
  | exhausted => trivial

end Attempt

/-- A parser of rules whose outcomes last: later runs are not cut short. -/
def RuleParser.Lasts (g : Grammar) (bound : Bound) (call : RuleParser) : Prop :=
  ∀ name p, ((Phrase.rule name).parse call bound p).Lasts g bound [] ((Phrase.rule name).parse g.settled bound)

namespace Phrase

variable {g : Grammar} {bound : Bound} {call : RuleParser}

theorem takesOne_term (t : Term) (own : Bound) : Attempt.TakesOne (t.accepts ·) ((term t).parse call own) where
  onToken := fun s q hs => by rw [parse, Pending.takeToken?_eq_some.mpr ⟨rfl, hs⟩]
  otherwise := by
    intro q hq
    cases ht : Pending.takeToken? t q with
    | none => rw [parse, ht]
    | some c =>
      obtain ⟨he, ha⟩ := Pending.takeToken?_eq_some.mp ht
      exact absurd ha (hq _ _ he)

/-- One of some phrases is a term that accepts a token. -/
def SomeAccepts : List Phrase → String → Prop
  | [], _ => False
  | e :: es, s => (∃ t, e = term t ∧ t.accepts s) ∨ SomeAccepts es s

theorem takesOne_first {es : List Phrase} (h : ∀ e ∈ es, ∃ t, e = term t) (own : Bound) :
    Attempt.TakesOne (SomeAccepts es) (parseFirst call es own) := by
  induction es with
  | nil => exact ⟨fun _ _ hs => hs.elim, fun _ _ => rfl⟩
  | cons e es ih =>
    obtain ⟨⟨t, rfl⟩, hes⟩ := List.forall_mem_cons.mp h
    have ht : Attempt.TakesOne (t.accepts ·) ((term t).parse call own) := takesOne_term t own
    simpa [SomeAccepts, parseFirst] using ht.orElse (ih hes)

mutual

theorem lasts_parse (hc : call.Lasts g bound) (ha : call.Advances g (· = bound)) : ∀ (e : Phrase) (p : Pending),
    e.BoundsIn (· = bound) → e.Determined → (e.parse call bound p).Lasts g bound [] (e.parse g.settled bound)
  | term t, p, _, _ => (takesOne_term t bound).lasts (takesOne_term t bound) p
  | rule name, p, _, _ => hc name p
  | bounded e own, p, hb, hd => by
    obtain ⟨hown, hb⟩ := List.forall_mem_cons.mp hb
    cases hd with
    | bounded hd =>
      simp only [parse, hown]
      exact lasts_parse hc ha e p hb hd
  | choice es, p, _, hd => by
    cases hd with
    | choice h => exact (takesOne_first h bound).lasts (takesOne_first h bound) p
  | sequence es, p, hb, hd => by
    cases hd with
    | sequence hd => exact lasts_parseEach hc ha es p hb hd

theorem lasts_parseEach (hc : call.Lasts g bound) (ha : call.Advances g (· = bound)) :
    ∀ (es : List Phrase) (p : Pending), (∀ own ∈ boundsOfEach es, own = bound) → (∀ e ∈ es, e.Determined) →
      (parseEach call es bound p).Lasts g bound [] (parseEach g.settled es bound)
  | [], _, _, _ => Attempt.lasts_nothing fun _ => rfl
  | e :: es, p, hb, hd => by
    obtain ⟨hbe, hbs⟩ := boundsIn_cons.mp hb
    obtain ⟨hde, hds⟩ := List.forall_mem_cons.mp hd
    exact (lasts_parse hc ha e p hbe hde).followedBy (fun rest => advances_parseEach ha es rest rfl hbs)
      fun rest => lasts_parseEach hc ha es rest hbs hds

end

theorem lasts_complete (hc : call.Lasts g bound) (ha : call.Advances g (· = bound)) :
    ∀ (e : Phrase) {p q : Pending} {left : Item}, e.BoundsIn (· = bound) → e.Determined →
      e.corner? q = some (left, p) →
      (e.complete call left bound p).Lasts g bound [left.toNode] (e.complete g.settled left bound)
  | term t, p, q, left, _, _, hl => by
    obtain ⟨⟨s, q⟩, -, he⟩ := Option.map_eq_some_iff.mp hl
    cases he
    exact Attempt.lasts_nothing fun _ => rfl
  | rule name, p, q, left, _, _, hl => by
    obtain ⟨⟨t, q⟩, -, he⟩ := Option.map_eq_some_iff.mp hl
    cases he
    exact Attempt.lasts_nothing fun _ => rfl
  | bounded e own, p, q, left, hb, hd, hl => by
    obtain ⟨hown, hb⟩ := List.forall_mem_cons.mp hb
    cases hd with
    | bounded hd =>
      simp only [complete, hown]
      exact lasts_complete hc ha e hb hd hl
  | sequence (e :: es), p, q, left, hb, hd, hl => by
    obtain ⟨hbe, hbs⟩ := boundsIn_cons.mp hb
    cases hd with
    | sequence hd =>
      obtain ⟨hde, hds⟩ := List.forall_mem_cons.mp hd
      exact (lasts_complete hc ha e hbe hde hl).followedBy (fun rest => advances_parseEach ha es rest rfl hbs)
        fun rest => lasts_parseEach hc ha es rest hbs hds

end Phrase

end LeftCorner
