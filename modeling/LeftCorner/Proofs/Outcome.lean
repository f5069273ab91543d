import LeftCorner.Phrase.Match

/-!
# What attempts guarantee

A guarantee says what holds when an attempt ends with a match, what holds when it ends without one, and
whether it may be cut short. Guarantees pass through the ways of putting attempts together, so a law of a
parser of rules becomes a law of everything that is matched with it.
-/

namespace LeftCorner.Attempt

variable {α β : Type}

/-- What holds after a match, after a failure, and if the allowed steps did not suffice. -/
def Meets (onMatch : α → Pending → Prop) (onFailure : Pending → Prop) (cutShort : Prop) :
    Attempt α → Prop
  | matched value rest => onMatch value rest
  | failed rest => onFailure rest
  | exhausted => cutShort

variable {onMatch : α → Pending → Prop} {onFailure : Pending → Prop} {cutShort : Prop}

@[simp] theorem meets_matched {value : α} {rest : Pending} :
    (matched value rest).Meets onMatch onFailure cutShort ↔ onMatch value rest := Iff.rfl

@[simp] theorem meets_failed {rest : Pending} :
    (failed rest : Attempt α).Meets onMatch onFailure cutShort ↔ onFailure rest := Iff.rfl

@[simp] theorem meets_exhausted :
    (exhausted : Attempt α).Meets onMatch onFailure cutShort ↔ cutShort := Iff.rfl

/-- A guarantee may be weakened. -/
theorem Meets.imp {a : Attempt α} {onMatch' : α → Pending → Prop} {onFailure' : Pending → Prop}
    (h : a.Meets onMatch onFailure cutShort) (hm : ∀ value rest, onMatch value rest → onMatch' value rest)
    (hf : ∀ rest, onFailure rest → onFailure' rest) : a.Meets onMatch' onFailure' cutShort := by
  cases a with
  | matched value rest => exact hm value rest h
  | failed rest => exact hf rest h
  | exhausted => exact h

theorem Meets.map {a : Attempt α} {f : α → β} {onMatch : β → Pending → Prop}
    (h : a.Meets (fun value rest => onMatch (f value) rest) onFailure cutShort) :
    (a.map f).Meets onMatch onFailure cutShort := by
  cases a <;> exact h

/-- What comes after a failure starts from what the failure guarantees. -/
theorem Meets.orElse {a : Attempt α} {next : Pending → Attempt α} {onFailure' : Pending → Prop}
    (h : a.Meets onMatch onFailure cutShort)
    (hn : ∀ rest, onFailure rest → (next rest).Meets onMatch onFailure' cutShort) :
    (a.orElse next).Meets onMatch onFailure' cutShort := by
  cases a with
  | matched value rest => exact h
  | failed rest => exact hn rest h
  | exhausted => exact h

/-- What comes after a match starts from what the match guarantees, and its failure puts the match back. -/
theorem Meets.followedBy {a : Attempt (List Node)} {next : Pending → Attempt (List Node)}
    {first onMatch : List Node → Pending → Prop} (h : a.Meets first onFailure cutShort)
    (hn : ∀ nodes rest, first nodes rest →
      (next rest).Meets (fun more rest => onMatch (nodes ++ more) rest)
        (fun rest => onFailure (Pending.restore nodes rest)) cutShort) :
    (a.followedBy next).Meets onMatch onFailure cutShort := by
  cases a with
  | matched nodes rest =>
    have hr := hn nodes rest h
    simp only [Attempt.followedBy]
    cases he : next rest with
    | matched more rest => simpa [he] using hr
    | failed rest => simpa [he] using hr
    | exhausted => simpa [he] using hr
  | failed rest => exact h
  | exhausted => exact h

end LeftCorner.Attempt
