import LeftCorner.Pending

/-!
# Attempts

An attempt to match leaves the pending items changed, also when it fails: reductions made along the way
stay. It may also use up the steps it was allowed.
-/

namespace LeftCorner

/-- The outcome of an attempt, with the items that are pending after it. -/
inductive Attempt (α : Type) where
  | matched (value : α) (rest : Pending)
  | failed (rest : Pending)
  /-- The allowed steps did not suffice to tell. -/
  | exhausted
deriving DecidableEq

namespace Attempt

variable {α β : Type}

def map (f : α → β) : Attempt α → Attempt β
  | matched value rest => matched (f value) rest
  | failed rest => failed rest
  | exhausted => exhausted

/-- Goes on with another attempt, on what is pending now, if this one fails. -/
def orElse (a : Attempt α) (next : Pending → Attempt α) : Attempt α :=
  match a with
  | failed rest => next rest
  | a => a

/-- Goes on behind what was matched. If that fails, what was matched is put back. -/
def followedBy (a : Attempt (List Node)) (next : Pending → Attempt (List Node)) :
    Attempt (List Node) :=
  match a with
  | matched nodes rest =>
    match next rest with
    | matched more rest => matched (nodes ++ more) rest
    | failed rest => failed (Pending.restore nodes rest)
    | exhausted => exhausted
  | a => a

/-- Makes attempts one after another until one does not fail, each on what the failures before it left pending. -/
def first : List (Pending → Attempt α) → Pending → Attempt α
  | [], p => .failed p
  | run :: runs, p => (run p).orElse (first runs)

/-- Makes all of some attempts, each behind what those before it matched. A failure puts everything back. -/
def each : List (Pending → Attempt (List Node)) → Pending → Attempt (List Node)
  | [], p => .matched [] p
  | run :: runs, p => (run p).followedBy (each runs)

def value? : Attempt α → Option α
  | matched value _ => some value
  | _ => none

/-- What is pending after the attempt, if it came to an end. -/
def rest? : Attempt α → Option Pending
  | matched _ rest | failed rest => some rest
  | exhausted => none

@[simp] theorem map_matched (f : α → β) (value : α) (rest : Pending) :
    (matched value rest).map f = matched (f value) rest := rfl

@[simp] theorem map_failed (f : α → β) (rest : Pending) :
    (failed rest : Attempt α).map f = failed rest := rfl

@[simp] theorem map_exhausted (f : α → β) : (exhausted : Attempt α).map f = exhausted := rfl

@[simp] theorem orElse_matched (value : α) (rest : Pending) (next : Pending → Attempt α) :
    (matched value rest).orElse next = matched value rest := rfl

@[simp] theorem orElse_failed (rest : Pending) (next : Pending → Attempt α) :
    (failed rest).orElse next = next rest := rfl

@[simp] theorem orElse_exhausted (next : Pending → Attempt α) :
    (exhausted : Attempt α).orElse next = exhausted := rfl

@[simp] theorem followedBy_failed (rest : Pending) (next : Pending → Attempt (List Node)) :
    (failed rest).followedBy next = failed rest := rfl

theorem followedBy_of_matched {nodes more : List Node} {rest rest' : Pending} {next : Pending → Attempt (List Node)}
    (h : next rest = matched more rest') : (matched nodes rest).followedBy next = matched (nodes ++ more) rest' := by
  rw [followedBy, h]

theorem followedBy_of_failed {nodes : List Node} {rest rest' : Pending} {next : Pending → Attempt (List Node)}
    (h : next rest = failed rest') :
    (matched nodes rest).followedBy next = failed (Pending.restore nodes rest') := by
  rw [followedBy, h]

/-- A chain of alternatives may be grouped either way. -/
theorem orElse_assoc (a : Attempt α) (f g : Pending → Attempt α) :
    (a.orElse f).orElse g = a.orElse fun rest => (f rest).orElse g := by
  cases a <;> rfl

theorem orElse_fail (a : Attempt α) : a.orElse .failed = a := by
  cases a <;> rfl

theorem first_append (runs runs' : List (Pending → Attempt α)) (p : Pending) :
    first (runs ++ runs') p = (first runs p).orElse (first runs') := by
  induction runs generalizing p with
  | nil => rfl
  | cons run runs ih =>
    simp only [List.cons_append, first, orElse_assoc]
    congr 1
    funext rest
    exact ih rest

theorem first_singleton (run : Pending → Attempt α) : first [run] = run := by
  funext p
  have h : (first [] : Pending → Attempt α) = .failed := rfl
  rw [first, h, orElse_fail]

/-- What is matched may be mapped before going on after a failure, or afterwards. -/
theorem map_orElse (f : α → β) (a : Attempt α) (next : Pending → Attempt α) :
    (a.orElse next).map f = (a.map f).orElse fun rest => (next rest).map f := by
  cases a <;> rfl

end Attempt

end LeftCorner
