import LeftCorner.Regex.Basic
import Mathlib.Data.List.Count
import Mathlib.Logic.Function.Iterate

/-!
# Matches

A match is the part of a text between two places. Which parts match is said here without marks, part by part: a sequence
matches where one part ends at the place at which the other begins, and a repetition matches as many parts in a row as it
allows. The marks that are reached are just the places where the matches end that begin at a marked place. A loop without
a bound may stop as soon as it marks no other place, which is at the latest after as many rounds as there are places.
-/

namespace LeftCorner

namespace Regex

/-- A number of steps in a row. -/
def Times (step : Nat → Nat → Prop) : Nat → Nat → Nat → Prop
  | 0, i, j => i = j
  | n + 1, i, j => ∃ k, step i k ∧ Times step n k j

/-- The character before a place in a text. -/
def before (text : List Char) (i : Nat) : Option Char := if i = 0 then none else text[i - 1]?

/-- Whether the part of a text from one place to another is a match. -/
def Matches (text : List Char) : Regex → Nat → Nat → Prop
  | empty, i, j => i = j
  | chars set, i, j => j = i + 1 ∧ ∃ c, text[i]? = some c ∧ set.contains c
  | look l, i, j => i = j ∧ l.holds (before text i) text[i]?
  | cat a b, i, j => ∃ k, a.Matches text i k ∧ b.Matches text k j
  | alt a b, i, j => a.Matches text i j ∨ b.Matches text i j
  | repeated r min max, i, j => ∃ n, min ≤ n ∧ (∀ m ∈ max, n ≤ m) ∧ Times (r.Matches text) n i j

/-- No repetition asks for more matches than it allows. -/
def Ordered : Regex → Prop
  | empty | chars _ | look _ => True
  | cat a b | alt a b => a.Ordered ∧ b.Ordered
  | repeated r min max => r.Ordered ∧ ∀ m ∈ max, min ≤ m

theorem times_add {step : Nat → Nat → Prop} {m n i j : Nat} :
    Times step (m + n) i j ↔ ∃ k, Times step m i k ∧ Times step n k j := by
  induction m generalizing i with
  | zero => simp [Times]
  | succ m ih =>
    rw [Nat.succ_add]
    constructor
    · rintro ⟨k, hk, h⟩
      obtain ⟨l, hl, h⟩ := ih.mp h
      exact ⟨l, ⟨k, hk, hl⟩, h⟩
    · rintro ⟨l, ⟨k, hk, hl⟩, h⟩
      exact ⟨k, hk, ih.mpr ⟨l, hl, h⟩⟩

/-- Some steps that are asked for, and then more of them. -/
theorem times_at_least {step : Nat → Nat → Prop} (allowed : Nat → Prop) {min i j : Nat} :
    (∃ k, Times step min i k ∧ ∃ n, allowed (min + n) ∧ Times step n k j) ↔
      ∃ n, min ≤ n ∧ allowed n ∧ Times step n i j := by
  constructor
  · rintro ⟨k, hk, n, hn, h⟩
    exact ⟨min + n, Nat.le_add_right min n, hn, times_add.mpr ⟨k, hk, h⟩⟩
  · rintro ⟨n, hmin, hn, h⟩
    obtain ⟨m, rfl⟩ := Nat.exists_eq_add_of_le hmin
    obtain ⟨k, hk, h⟩ := times_add.mp h
    exact ⟨k, hk, m, hn, h⟩

theorem times_or_eq {step : Nat → Nat → Prop} {n i j : Nat} :
    Times (fun i j => i = j ∨ step i j) n i j ↔ ∃ k ≤ n, Times step k i j := by
  induction n generalizing i with
  | zero => simp [Times]
  | succ n ih =>
    constructor
    · rintro ⟨k, rfl | hk, h⟩
      · obtain ⟨m, hm, h⟩ := ih.mp h
        exact ⟨m, Nat.le_succ_of_le hm, h⟩
      · obtain ⟨m, hm, h⟩ := ih.mp h
        exact ⟨m + 1, Nat.succ_le_succ hm, k, hk, h⟩
    · rintro ⟨m, hm, h⟩
      cases m with
      | zero => exact ⟨i, .inl rfl, ih.mpr ⟨0, Nat.zero_le n, h⟩⟩
      | succ m =>
        obtain ⟨k, hk, h⟩ := h
        exact ⟨k, .inr hk, ih.mpr ⟨m, Nat.le_of_succ_le_succ hm, h⟩⟩

end Regex

namespace Marks

open Regex

variable {text : List Char} {marks a b : Marks} {i j : Nat}

/-- Whether a place is marked. -/
def At (marks : Marks) (i : Nat) : Prop := marks[i]? = some true

theorem at_all : (all text).At i ↔ i ≤ text.length := by
  simp only [At, all, List.getElem?_replicate, Option.ite_none_right_eq_some, and_true]
  exact Nat.lt_succ_iff

theorem at_union (h : a.length = b.length) : (a.union b).At i ↔ a.At i ∨ b.At i := by
  rw [At, At, At, union, List.getElem?_zipWith]
  by_cases hi : i < a.length
  · have hb : i < b.length := h ▸ hi
    simp [hi, hb]
  · have hb : ¬ i < b.length := h ▸ hi
    simp [hi, hb]

theorem at_advance {set : CharSet} (h : marks.length = text.length + 1) :
    (marks.advance set text).At j ↔ ∃ i, marks.At i ∧ (chars set).Matches text i j := by
  cases j with
  | zero => simp [At, advance, Matches]
  | succ j =>
    simp only [At, advance, Matches, List.getElem?_cons_succ, List.getElem?_zipWith, Nat.add_right_cancel_iff]
    by_cases hj : j < text.length
    · have hm : j < marks.length := by omega
      simp [hj, hm]
    · simp [hj]

theorem length_sides (c : Option Char) (text : List Char) : (sides c text).length = text.length + 1 := by
  induction text generalizing c with
  | nil => rfl
  | cons d text ih => simp [sides, ih]

theorem getElem?_sides (c : Option Char) (text : List Char) (h : i ≤ text.length) :
    (sides c text)[i]? = some (if i = 0 then c else text[i - 1]?, text[i]?) := by
  induction text generalizing c i with
  | nil =>
    obtain rfl := Nat.le_zero.mp h
    rfl
  | cons d text ih =>
    cases i with
    | zero => rfl
    | succ i =>
      rw [sides, List.getElem?_cons_succ, ih (some d) (Nat.le_of_succ_le_succ h)]
      cases i <;> rfl

theorem at_keep {l : Look} (h : marks.length = text.length + 1) :
    (marks.keep l text).At j ↔ ∃ i, marks.At i ∧ (look l).Matches text i j := by
  simp only [At, keep, Matches, List.getElem?_zipWith]
  by_cases hj : j < marks.length
  · rw [getElem?_sides none text (by omega)]
    simp [hj, before]
  · simp [hj]

/-- How the marks change in a loop is said by a relation between places. -/
structure Follows (text : List Char) (step : Marks → Marks) (r : Nat → Nat → Prop) : Prop where
  length : ∀ {marks}, marks.length = text.length + 1 → (step marks).length = text.length + 1
  at_step : ∀ {marks j}, marks.length = text.length + 1 → ((step marks).At j ↔ ∃ i, marks.At i ∧ r i j)

variable {step : Marks → Marks} {r : Nat → Nat → Prop} {n : Nat}

theorem length_union (h : a.length = b.length) : (a.union b).length = a.length := by
  simp [union, h]

theorem Follows.congr {r' : Nat → Nat → Prop} (hs : Follows text step r) (h : ∀ i j, r i j ↔ r' i j) :
    Follows text step r' where
  length := hs.length
  at_step hm := by simp only [hs.at_step hm, h]

theorem Follows.comp {step' : Marks → Marks} {r' : Nat → Nat → Prop} (hs : Follows text step r)
    (hs' : Follows text step' r') :
    Follows text (fun marks => step' (step marks)) fun i j => ∃ k, r i k ∧ r' k j where
  length hm := hs'.length (hs.length hm)
  at_step hm := by
    simp only [hs'.at_step (hs.length hm), hs.at_step hm]
    constructor
    · rintro ⟨k, ⟨i, hi, hk⟩, hj⟩
      exact ⟨i, hi, k, hk, hj⟩
    · rintro ⟨i, hi, k, hk, hj⟩
      exact ⟨k, ⟨i, hi, hk⟩, hj⟩

theorem Follows.union {step' : Marks → Marks} {r' : Nat → Nat → Prop} (hs : Follows text step r)
    (hs' : Follows text step' r') :
    Follows text (fun marks => (step marks).union (step' marks)) fun i j => r i j ∨ r' i j where
  length hm := by rw [length_union (by rw [hs.length hm, hs'.length hm]), hs.length hm]
  at_step hm := by
    rw [at_union (by rw [hs.length hm, hs'.length hm]), hs.at_step hm, hs'.at_step hm, ← exists_or]
    simp only [and_or_left]

theorem follows_id : Follows text id Eq where
  length hm := hm
  at_step hm := by simp

/-- Stopping early makes no difference. -/
theorem iterate_eq (step : Marks → Marks) (n : Nat) (marks : Marks) : iterate step n marks = step^[n] marks := by
  induction n generalizing marks with
  | zero => rfl
  | succ n ih =>
    rw [iterate, Function.iterate_succ_apply]
    split
    next h => rw [h, Function.iterate_fixed h]
    next => exact ih (step marks)

theorem Follows.iterate (hs : Follows text step r) (n : Nat) : Follows text (iterate step n) (Times r n) := by
  rw [funext (iterate_eq step n)]
  induction n with
  | zero => exact follows_id
  | succ n ih => exact hs.comp ih

theorem widen_eq_iterate (step : Marks → Marks) (n : Nat) :
    widen step n = Marks.iterate (fun marks => marks.union (step marks)) n := by
  induction n with
  | zero => rfl
  | succ n ih =>
    funext marks
    rw [widen, Marks.iterate, ih]

theorem Follows.widen (hs : Follows text step r) (n : Nat) :
    Follows text (widen step n) fun i j => ∃ k ≤ n, Times r k i j := by
  rw [widen_eq_iterate]
  exact ((follows_id.union hs).iterate n).congr fun _ _ => times_or_eq

/-- A round that changes the marks marks a place that was not marked. -/
theorem count_union_lt (h : a.length = b.length) (hne : a.union b ≠ a) : (a.union b).count false < a.count false := by
  induction a generalizing b with
  | nil => simp [Marks.union] at hne
  | cons x a ih =>
    cases b with
    | nil => simp at h
    | cons y b =>
      have hcons : Marks.union (x :: a) (y :: b) = (x || y) :: Marks.union a b := List.zipWith_cons_cons
      rw [hcons] at hne ⊢
      by_cases he : Marks.union a b = a
      · -- Only the first mark can have changed.
        rw [he] at hne ⊢
        cases x <;> cases y <;> simp at hne ⊢
      · have hlt := ih (Nat.succ_inj.mp h) he
        cases x <;> cases y <;> simp <;> omega

/-- As many rounds as there are unmarked places suffice. -/
theorem widen_fixed (hs : Follows text step r) {n : Nat} (hm : marks.length = text.length + 1)
    (hn : marks.count false ≤ n) : (widen step n marks).union (step (widen step n marks)) = widen step n marks := by
  have hlength : marks.length = (step marks).length := by rw [hm, hs.length hm]
  induction n generalizing marks with
  | zero =>
    by_contra hne
    exact absurd (Nat.lt_of_lt_of_le (count_union_lt hlength hne) hn) (Nat.not_lt_zero _)
  | succ n ih =>
    rw [widen]
    split
    next h => exact h
    next hne =>
      have hnext : (marks.union (step marks)).length = text.length + 1 := by rw [length_union hlength, hm]
      have hlt := count_union_lt hlength hne
      exact ih hnext (by omega) (by rw [hnext, hs.length hnext])

/-- What marks no other place marks none in any number of rounds. -/
theorem at_of_fixed (hs : Follows text step r) (hm : marks.length = text.length + 1)
    (h : marks.union (step marks) = marks) {n : Nat} (hi : marks.At i) (hn : Times r n i j) : marks.At j := by
  induction n generalizing i with
  | zero => exact hn ▸ hi
  | succ n ih =>
    obtain ⟨k, hk, hn⟩ := hn
    refine ih ?_ hn
    rw [← h, at_union (by rw [hm, hs.length hm])]
    exact .inr ((hs.at_step hm).mpr ⟨i, hi, hk⟩)

/-- A loop without a bound need not go round more often than there are places. -/
theorem Follows.widen_unbounded (hs : Follows text step r) :
    Follows text (Marks.widen step (text.length + 1)) fun i j => ∃ k, Times r k i j where
  length := (hs.widen _).length
  at_step {marks j} hm := by
    have hw := fun j => (hs.widen (text.length + 1)).at_step (j := j) hm
    constructor
    · intro h
      obtain ⟨i, hi, k, -, h⟩ := (hw j).mp h
      exact ⟨i, hi, k, h⟩
    · rintro ⟨i, hi, k, h⟩
      have hcount : marks.count false ≤ text.length + 1 := hm ▸ List.count_le_length
      have hstart : (Marks.widen step (text.length + 1) marks).At i := (hw i).mpr ⟨i, hi, 0, Nat.zero_le _, rfl⟩
      exact at_of_fixed hs ((hs.widen _).length hm) (widen_fixed hs hm hcount) hstart h

end Marks

namespace Regex

open Marks

/-- The marks that are reached are the ends of the matches that begin at a mark. The induction is on the regular
expression. -/
theorem follows_reach {text : List Char} : ∀ {r : Regex}, r.Ordered → Follows text (r.reach text) (r.Matches text)
  | empty, _ => follows_id
  | chars set, _ => ⟨fun h => by simp [reach, advance, h], at_advance⟩
  | look l, _ => ⟨fun h => by simp [reach, keep, length_sides, h], at_keep⟩
  | cat a b, ⟨ha, hb⟩ => (follows_reach ha).comp (follows_reach hb)
  | alt a b, ⟨ha, hb⟩ => (follows_reach ha).union (follows_reach hb)
  | repeated r min none, ⟨hr, _⟩ => by
    have hs : Follows text (r.reach text) (r.Matches text) := follows_reach hr
    refine ((hs.iterate min).comp hs.widen_unbounded).congr fun i j => ?_
    simpa [Matches] using times_at_least fun _ => True
  | repeated r min (some max), ⟨hr, hmax⟩ => by
    have hs : Follows text (r.reach text) (r.Matches text) := follows_reach hr
    have hle : ∀ n, n ≤ max - min ↔ min + n ≤ max := by
      have hmin := hmax max rfl
      omega
    refine ((hs.iterate min).comp (hs.widen (max - min))).congr fun i j => ?_
    simpa [Matches, hle] using times_at_least (· ≤ max)

/-- A regular expression is found in a text if a part of the text is a match. -/
theorem isMatch_iff {r : Regex} (hr : r.Ordered) {text : List Char} :
    r.isMatch text ↔ ∃ i ≤ text.length, ∃ j, r.Matches text i j := by
  have h (j : Nat) : (r.reach text (Marks.all text)).At j ↔ ∃ i, (Marks.all text).At i ∧ r.Matches text i j :=
    (follows_reach hr).at_step (by simp [Marks.all])
  simp only [at_all] at h
  rw [isMatch, List.any_eq_true]
  constructor
  · rintro ⟨_, hx, rfl⟩
    obtain ⟨j, hj⟩ := List.getElem?_of_mem hx
    obtain ⟨i, hi, hij⟩ := (h j).mp hj
    exact ⟨i, hi, j, hij⟩
  · rintro ⟨i, hi, j, hij⟩
    exact ⟨true, List.mem_of_getElem? ((h j).mpr ⟨i, hi, hij⟩), rfl⟩

end Regex

end LeftCorner
