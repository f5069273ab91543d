/-!
# Binding levels and bounds

A reduction binds at a *level*: the lower, the tighter. A *bound* says which levels are welcome. One
bound serves two ends: it picks the alternatives that may fire, and it judges a finished tree.
-/

namespace LeftCorner

/-- How tightly a reduction binds. Terminals bind at level 0, tighter than everything. -/
abbrev Level := Nat

/-- The levels below a limit, the limit itself left out or taken in. -/
inductive Bound where
  | below (limit : Level)
  | atMost (limit : Level)
deriving DecidableEq, Inhabited

namespace Bound

/-- The bound of a caller who asks for none. -/
def standard : Bound := .atMost 100

def limit : Bound → Level
  | below n | atMost n => n

def admits : Bound → Level → Bool
  | below n, level => level < n
  | atMost n, level => level ≤ n

@[simp] theorem admits_below {n level : Level} : (below n).admits level ↔ level < n := by
  simp [admits]

@[simp] theorem admits_atMost {n level : Level} : (atMost n).admits level ↔ level ≤ n := by
  simp [admits]

theorem admits_of_lt {b : Bound} {level : Level} (h : level < b.limit) : b.admits level := by
  cases b with
  | below n => exact admits_below.mpr h
  | atMost n => exact admits_atMost.mpr (Nat.le_of_lt h)

theorem le_of_admits {b : Bound} {level : Level} (h : b.admits level) : level ≤ b.limit := by
  cases b with
  | below n => exact Nat.le_of_lt (admits_below.mp h)
  | atMost n => exact admits_atMost.mp h

theorem admits_of_le {b : Bound} {l m : Level} (h : l ≤ m) (hm : b.admits m) : b.admits l := by
  cases b with
  | below n => exact admits_below.mpr (Nat.lt_of_le_of_lt h (admits_below.mp hm))
  | atMost n => exact admits_atMost.mpr (Nat.le_trans h (admits_atMost.mp hm))

/-- Welcome levels lie below those that are not. -/
theorem lt_of_admits {b : Bound} {l m : Level} (hl : b.admits l) (hm : ¬ b.admits m) : l < m := by
  cases b with
  | below n =>
    rw [admits_below] at hl hm
    exact Nat.lt_of_lt_of_le hl (Nat.le_of_not_lt hm)
  | atMost n =>
    rw [admits_atMost] at hl hm
    exact Nat.lt_of_le_of_lt hl (Nat.lt_of_not_le hm)

/-- `<n` or `<=n`, the form in which a bound follows a phrase. -/
def text : Bound → String
  | below n => "<" ++ toString n
  | atMost n => "<=" ++ toString n

instance : ToString Bound := ⟨text⟩

end Bound

end LeftCorner
