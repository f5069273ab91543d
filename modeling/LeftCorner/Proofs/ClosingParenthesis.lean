import LeftCorner.Regex.Flags
import Mathlib.Tactic.SplitIfs

/-!
# Reading before a closing parenthesis

A source that is pasted between parentheses is read with a `)` behind it. No reader takes that parenthesis as part of what
it reads: what it finds in a text on its own it finds with the parenthesis behind it, which is then still to be read.
There is one exception. A comment that the source does not end takes the parenthesis in, and nothing is left of it.
-/

namespace LeftCorner.Regex

variable {α β γ : Type}

/-- What one reading finds is found by the other too, up to a relation between what they find. -/
def Refines (R : α → α → Prop) (x x' : Except Fault α) : Prop := ∀ a, x = .ok a → ∃ a', x' = .ok a' ∧ R a a'

/-- The same is found, and what stands behind is related. -/
def Behind (R : β → β → Prop) (p q : α × β) : Prop := p.1 = q.1 ∧ R p.2 q.2

theorem Behind.eq_mk {R : β → β → Prop} {a : α} {b : β} {q : α × β} (h : Behind R (a, b) q) :
    ∃ b', q = (a, b') ∧ R b b' :=
  ⟨q.2, Prod.ext h.1.symm rfl, h.2⟩

theorem Behind.eq_pair {R : γ → γ → Prop} {a : α} {b : β} {c : γ} {q : α × β × γ} (h : Behind (Behind R) (a, b, c) q) :
    ∃ c', q = (a, b, c') ∧ R c c' := by
  obtain ⟨_, rfl, hb⟩ := h.eq_mk
  obtain ⟨c', rfl, hc⟩ := hb.eq_mk
  exact ⟨c', rfl, hc⟩

section Refines

variable {R : α → α → Prop} {S : β → β → Prop} {x x' y y' : Except Fault α}

theorem refines_ok {a a' : α} (h : R a a') : Refines R (.ok a) (.ok a') := by
  rintro _ ⟨⟩
  exact ⟨a', rfl, h⟩

theorem refines_error {e : Fault} : Refines R (.error e) x' := nofun

theorem refines_rfl : Refines Eq x x := fun a h => ⟨a, h, rfl⟩

theorem refines_ite {c : Prop} [Decidable c] (h : Refines R x x') (h' : Refines R y y') :
    Refines R (if c then x else y) (if c then x' else y') := by
  split_ifs
  · exact h
  · exact h'

theorem Refines.bind {k k' : β → Except Fault α} {z z' : Except Fault β} (hz : Refines S z z')
    (hk : ∀ b b', S b b' → Refines R (k b) (k' b')) : Refines R (z >>= k) (z' >>= k') := by
  intro a h
  cases z with
  | error e => cases h
  | ok b =>
    obtain ⟨b', rfl, hb⟩ := hz b rfl
    exact hk b b' hb a h

theorem Refines.map {k k' : β → α} {z z' : Except Fault β} (hz : Refines S z z') (hk : ∀ b b', S b b' → R (k b) (k' b')) :
    Refines R (z.map k) (z'.map k') := by
  intro a h
  cases z with
  | error e => cases h
  | ok b =>
    obtain ⟨b', rfl, hb⟩ := hz b rfl
    cases h
    exact ⟨k' b', rfl, hk b b' hb⟩

end Refines

/-- The second text is the first with a closing parenthesis behind it, unless a comment has taken the parenthesis in. -/
def Closing (s s' : List Char) : Prop := s' = s ++ [')'] ∨ s' = s

variable {s s' t rest : List Char} {c : Char} {f : Flags}

theorem Closing.cons (c : Char) (h : Closing s s') : Closing (c :: s) (c :: s') := by
  rcases h with rfl | rfl
  · exact .inl rfl
  · exact .inr rfl

theorem closing_nil : Closing [] t ↔ t = [')'] ∨ t = [] := Iff.rfl

theorem Closing.eq_nil (h : Closing s s') (hs : s' = []) : s = [] := by
  rcases h with rfl | rfl
  · simp at hs
  · exact hs

theorem Closing.length_le (h : Closing s s') : s.length ≤ s'.length := by
  rcases h with rfl | rfl
  · simp
  · exact Nat.le_refl _

theorem closing_cons : Closing (c :: s) t ↔ ∃ s', t = c :: s' ∧ Closing s s' := by
  constructor
  · rintro (rfl | rfl)
    · exact ⟨s ++ [')'], rfl, .inl rfl⟩
    · exact ⟨s, rfl, .inr rfl⟩
  · rintro ⟨s', rfl, h⟩
    exact h.cons c

theorem Closing.eq_cons (h : Closing s s') (hs : s = c :: t) : ∃ t', s' = c :: t' ∧ Closing t t' :=
  closing_cons.mp (hs ▸ h)

theorem Closing.eq_pair {d : Char} (h : Closing s s') (hs : s = c :: d :: t) : ∃ t', s' = c :: d :: t' ∧ Closing t t' := by
  obtain ⟨_, rfl, hd⟩ := h.eq_cons hs
  obtain ⟨t', rfl, ht⟩ := hd.eq_cons rfl
  exact ⟨t', rfl, ht⟩

theorem Closing.head (h : Closing s (c :: t)) (hc : c ≠ ')') : ∃ u, s = c :: u := by
  cases s with
  | nil =>
    rcases closing_nil.mp h with h | h
    · exact absurd (List.cons.inj h).1 hc
    · cases h
  | cons d u =>
    obtain ⟨t, ht, -⟩ := closing_cons.mp h
    exact ⟨u, by rw [(List.cons.inj ht).1]⟩

theorem Closing.not_head (h : Closing s s') (hc : c ≠ ')') (hs : ∀ u, s = c :: u → False) : ∀ t, s' = c :: t → False := by
  rintro t rfl
  obtain ⟨u, hu⟩ := h.head hc
  exact hs u hu

theorem Closing.not_head_pair {d : Char} (h : Closing s s') (hc : c ≠ ')') (hd : d ≠ ')')
    (hs : ∀ u, s = c :: d :: u → False) : ∀ t, s' = c :: d :: t → False := by
  rintro t rfl
  obtain ⟨u, rfl⟩ := h.head hc
  obtain ⟨_, ht, hu⟩ := closing_cons.mp h
  obtain ⟨v, rfl⟩ := ((List.cons.inj ht).2 ▸ hu).head hd
  exact hs v rfl

theorem Closing.dropWhile (p : Char → Bool) (h : Closing s s') : Closing (s.dropWhile p) (s'.dropWhile p) := by
  rcases h with rfl | rfl
  · rw [List.dropWhile_append]
    split
    next hd =>
      rw [List.isEmpty_iff.mp hd, closing_nil]
      cases h : p ')' <;> simp [h]
    next => exact .inl rfl
  · exact .inr rfl

/-- What ends before the end of a text ends there too if something stands behind the text. -/
theorem Closing.takeWhile {p : Char → Bool} (hs : Closing s s') (h : s.dropWhile p = c :: rest) :
    s'.takeWhile p = s.takeWhile p ∧ ∃ rest', s'.dropWhile p = c :: rest' ∧ Closing rest rest' := by
  rcases hs with rfl | rfl
  · have hne : (s.takeWhile p).length ≠ s.length := by
      intro he
      have hlength := congrArg List.length (List.takeWhile_append_dropWhile (p := p) (l := s))
      rw [List.length_append, he, h, List.length_cons] at hlength
      omega
    rw [List.takeWhile_append, if_neg hne, List.dropWhile_append, h]
    exact ⟨rfl, rest ++ [')'], rfl, .inl rfl⟩
  · exact ⟨rfl, rest, h, .inr rfl⟩

namespace Flags

theorem closing_skipBlanks (inComment : Bool) (s : List Char) :
    Closing (skipBlanks inComment s) (skipBlanks inComment (s ++ [')'])) := by
  induction s generalizing inComment with
  | nil =>
    cases inComment with
    | false => exact .inl rfl
    | true => exact .inr rfl
  | cons c s ih =>
    rw [List.cons_append, skipBlanks, skipBlanks]
    split_ifs
    · exact ih _
    · exact ih _
    · exact ih _
    · exact .inl rfl

/-- A comment that runs to the end of the text takes the parenthesis in. -/
theorem closing_skip (f : Flags) (h : Closing s s') : Closing (f.skip s) (f.skip s') := by
  rcases h with rfl | rfl
  · unfold skip
    split
    · exact closing_skipBlanks false s
    · exact .inl rfl
  · exact .inr rfl

theorem length_skipBlanks_le (inComment : Bool) (s : List Char) : (skipBlanks inComment s).length ≤ s.length := by
  induction s generalizing inComment with
  | nil => simp [skipBlanks]
  | cons c s ih =>
    rw [skipBlanks]
    split_ifs
    · exact Nat.le_succ_of_le (ih _)
    · exact Nat.le_succ_of_le (ih _)
    · exact Nat.le_succ_of_le (ih _)
    · exact Nat.le_refl _

theorem length_skip_le (f : Flags) (s : List Char) : (f.skip s).length ≤ s.length := by
  unfold skip
  split
  · exact length_skipBlanks_le false s
  · exact Nat.le_refl _

theorem takeWhile_nil {accept : Char → Bool} {n : Nat} : f.takeWhile accept n [] = ([], []) := by
  cases n <;> rfl

theorem closing_takeWhile_nil {accept : Char → Bool} {m : Nat} (ha : accept ')' = false) (h : Closing [] s') :
    Behind Closing (([], []) : List Char × List Char) (f.takeWhile accept m s') := by
  have hone : f.takeWhile accept m [')'] = ([], [')']) := by
    cases m with
    | zero => rfl
    | succ m => rw [takeWhile, ha, if_neg Bool.false_ne_true]
  rcases closing_nil.mp h with rfl | rfl
  · rw [hone]
    exact ⟨rfl, .inl rfl⟩
  · rw [takeWhile_nil]
    exact ⟨rfl, .inr rfl⟩

/-- Whether a number of characters is asked for or as many as there are, the same ones are taken. A parenthesis that
would be taken too must stand behind one that is not. -/
theorem closing_takeWhile (f : Flags) (accept : Char → Bool) {n m : Nat} (hn : n = m ∨ s.length ≤ n ∧ s'.length ≤ m)
    (h : Closing s s') (ha : accept ')' = false ∨ (f.takeWhile accept n s).2 ≠ []) :
    Behind Closing (f.takeWhile accept n s) (f.takeWhile accept m s') := by
  induction n generalizing m s s' with
  | zero =>
    cases s with
    | nil => exact closing_takeWhile_nil (ha.resolve_right fun hne => hne rfl) h
    | cons c s =>
      obtain rfl : 0 = m := by simpa using hn
      exact ⟨rfl, h⟩
  | succ n ih =>
    cases s with
    | nil => exact closing_takeWhile_nil (ha.resolve_right fun hne => hne rfl) h
    | cons c s =>
      obtain ⟨t, rfl, ht⟩ := closing_cons.mp h
      cases m with
      | zero => simp at hn
      | succ m =>
        rw [takeWhile] at ha
        rw [takeWhile, takeWhile]
        by_cases hc : accept c
        · have hlength := f.length_skip_le s
          have hlength' := f.length_skip_le t
          simp only [List.length_cons] at hn
          rw [if_pos hc] at ha
          rw [if_pos hc, if_pos hc]
          obtain ⟨htaken, hrest⟩ := ih (m := m) (by omega) (f.closing_skip ht) ha
          exact ⟨congrArg (c :: ·) htaken, hrest⟩
        · rw [if_neg hc, if_neg hc]
          exact ⟨rfl, ht.cons c⟩

theorem closing_takeAll (f : Flags) (accept : Char → Bool) (hs : Closing s s') (ha : accept ')' = false) :
    Behind Closing (f.takeWhile accept s.length s) (f.takeWhile accept s'.length s') :=
  f.closing_takeWhile accept (.inr ⟨Nat.le_refl _, Nat.le_refl _⟩) hs (.inl ha)

/-- Everything up to a character that is not accepted, and what stands behind that character. -/
theorem closing_takeUntil {accept : Char → Bool} {taken : List Char} (hs : Closing s s')
    (h : f.takeWhile accept s.length s = (taken, c :: rest)) :
    ∃ rest', f.takeWhile accept s'.length s' = (taken, c :: rest') ∧ Closing rest rest' := by
  have hc := f.closing_takeWhile accept (.inr ⟨Nat.le_refl _, Nat.le_refl _⟩) hs (.inr (by simp [h]))
  rw [h] at hc
  obtain ⟨_, htaken, hbehind⟩ := hc.eq_mk
  obtain ⟨rest', rfl, hrest⟩ := hbehind.eq_cons rfl
  exact ⟨rest', htaken, hrest⟩

theorem settings_closing {seen : List Flag} {negated dangling : Bool} (hs : Closing s s') :
    Refines (Behind (Behind Closing)) (settings f seen negated dangling s) (settings f seen negated dangling s') := by
  induction s generalizing f seen negated dangling s' with
  | nil => exact refines_error
  | cons c s ih =>
    obtain ⟨t, rfl, ht⟩ := closing_cons.mp hs
    rw [settings, settings]
    refine refines_ite (refines_ite refines_error (refines_ok ⟨rfl, rfl, hs⟩)) ?_
    refine refines_ite (refines_ite refines_error (ih ht)) ?_
    cases Flag.ofChar? c with
    | none => exact refines_error
    | some flag => exact refines_ite refines_error (ih ht)

end Flags

end LeftCorner.Regex
