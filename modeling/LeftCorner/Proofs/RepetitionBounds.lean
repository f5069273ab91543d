import LeftCorner.Proofs.RegexGroups
import LeftCorner.Proofs.RegexMatches

/-!
# The bounds of repetitions

What `Regex.parse` reads has no repetition that asks for more matches than it allows. Only a counted repetition could, and
its bounds are compared when they are read.
-/

namespace LeftCorner.Regex

variable {α β : Type}

/-- What is read has a property, if anything is read. -/
def Yields (P : α → Prop) (x : Except Fault α) : Prop := ∀ a, x = .ok a → P a

section Yields

variable {P : α → Prop} {Q : β → Prop} {x y : Except Fault α}

theorem yields_ok {a : α} (h : P a) : Yields P (.ok a) := by
  rintro _ ⟨⟩
  exact h

theorem yields_error {e : Fault} : Yields P (.error e) := nofun

theorem yields_true : Yields (fun _ => True) x := fun _ _ => trivial

theorem yields_ite {c : Prop} [Decidable c] (h : c → Yields P x) (h' : ¬ c → Yields P y) :
    Yields P (if c then x else y) := by
  split_ifs with hc
  · exact h hc
  · exact h' hc

theorem Yields.bind {z : Except Fault β} {k : β → Except Fault α} (hz : Yields Q z) (hk : ∀ b, Q b → Yields P (k b)) :
    Yields P (z >>= k) := by
  cases z with
  | error e => exact yields_error
  | ok b => exact hk b (hz b rfl)

end Yields

namespace Piece

variable {p : Piece} {ps : List Piece}

theorem ordered_foldl {op : Regex → Regex → Regex} (hop : ∀ {a b : Regex}, a.Ordered → b.Ordered → (op a b).Ordered)
    {r : Regex} (hr : r.Ordered) (hps : ∀ q ∈ ps, q.regex.Ordered) :
    (ps.foldl (fun r q => op r q.regex) r).Ordered := by
  induction ps generalizing r with
  | nil => exact hr
  | cons q ps ih =>
    obtain ⟨hq, hps⟩ := List.forall_mem_cons.mp hps
    exact ih (hop hr hq) hps

theorem ordered_sequence (hps : ∀ q ∈ ps, q.regex.Ordered) : (sequence ps).regex.Ordered := by
  unfold sequence
  split
  next => trivial
  next p => exact hps p (List.mem_singleton_self p)
  next p ps _ =>
    obtain ⟨hp, hps⟩ := List.forall_mem_cons.mp hps
    exact ordered_foldl And.intro hp hps

theorem ordered_choice (hp : p.regex.Ordered) (hps : ∀ q ∈ ps, q.regex.Ordered) : (choice p ps).regex.Ordered := by
  unfold choice
  split
  next => exact hp
  next => exact ordered_foldl And.intro hp hps

/-- The bounds of a piece that matches nothing but the empty text are cut down to one, both of them. -/
theorem ordered_repeated {min : Nat} {max : Option Nat} (hp : p.regex.Ordered) (h : ∀ m ∈ max, min ≤ m) :
    (p.repeated min max).regex.Ordered := by
  unfold repeated
  cases p.zeroWidth with
  | false => exact ⟨hp, h⟩
  | true =>
    refine ⟨hp, ?_⟩
    rintro _ ⟨⟩
    cases max with
    | none => exact Nat.min_le_right min 1
    | some m => exact Nat.le_min.mpr ⟨Nat.le_trans (Nat.min_le_left min 1) (h m rfl), Nat.min_le_right min 1⟩

end Piece

namespace Draft

/-- All pieces that have been read are ordered. -/
structure Ordered (d : Draft) : Prop where
  branches : ∀ p ∈ d.branches, p.regex.Ordered
  elements : ∀ p, some p ∈ d.elements → p.regex.Ordered

variable {d : Draft} {p : Piece}

theorem ordered_start : start.Ordered := ⟨nofun, nofun⟩

theorem Ordered.branch (h : d.Ordered) : d.branch.regex.Ordered := by
  refine Piece.ordered_sequence fun q hq => ?_
  obtain ⟨o, ho, rfl⟩ := List.mem_map.mp hq
  cases o with
  | none => trivial
  | some p => exact h.elements p (List.mem_reverse.mp ho)

theorem Ordered.split (h : d.Ordered) : d.split.Ordered where
  branches := List.forall_mem_cons.mpr ⟨h.branch, h.branches⟩
  elements := nofun

theorem Ordered.push (h : d.Ordered) (hp : p.regex.Ordered) : (d.push p).Ordered where
  branches := h.branches
  elements q hq := by
    rcases List.mem_cons.mp hq with hq | hq
    · exact Option.some.inj hq ▸ hp
    · exact h.elements q hq

theorem Ordered.pushSettings (h : d.Ordered) : d.pushSettings.Ordered where
  branches := h.branches
  elements q hq := by
    rcases List.mem_cons.mp hq with hq | hq
    · cases hq
    · exact h.elements q hq

theorem Ordered.result (h : d.Ordered) : d.result.regex.Ordered := by
  unfold Draft.result
  split
  next => exact h.branch
  next p ps hbranches =>
    have hmem (q : Piece) (hq : q ∈ p :: ps) : q.regex.Ordered :=
      h.branches q (List.mem_reverse.mp (hbranches ▸ hq))
    refine Piece.ordered_choice (hmem p List.mem_cons_self) fun q hq => ?_
    rcases List.mem_append.mp hq with hq | hq
    · exact hmem q (List.mem_cons_of_mem p hq)
    · exact List.mem_singleton.mp hq ▸ h.branch

theorem Ordered.repeatLast {min : Nat} {max : Option Nat} (h : d.Ordered) (hmin : ∀ m ∈ max, min ≤ m) :
    Yields Ordered (d.repeatLast min max) := by
  unfold Draft.repeatLast
  split
  next p rest helements =>
    refine yields_ok ⟨h.branches, fun q hq => ?_⟩
    rcases List.mem_cons.mp hq with hq | hq
    · have hp := h.elements p (helements ▸ List.mem_cons_self)
      exact Option.some.inj hq ▸ Piece.ordered_repeated hp hmin
    · exact h.elements q (helements ▸ List.mem_cons_of_mem _ hq)
  next => exact yields_error

end Draft

namespace Parse

variable {f : Flags} {names : List (List Char)} {d : Draft} {s : List Char} {n : Nat}

theorem closingBrace_yields {min : Nat} {max : Option Nat} (h : ∀ m ∈ max, min ≤ m) :
    Yields (fun found => ∀ m ∈ found.2.1, found.1 ≤ m)
      (match s with
        | '}' :: rest => .ok (min, max, dropLazy (f.skip rest))
        | _ => .error .repetition) := by
  split
  next => exact yields_ok h
  next => exact yields_error

theorem counts_yields : Yields (fun found => ∀ m ∈ found.2.1, found.1 ≤ m) (counts f s) := by
  unfold counts
  refine yields_true.bind fun (least, rest) _ => ?_
  dsimp only
  split
  next min u =>
    split
    next => exact yields_ok nofun
    next =>
      refine yields_true.bind fun (most, rest) _ => ?_
      cases most with
      | none => exact yields_error
      | some max => exact yields_ite (fun h => closingBrace_yields (by simpa using h)) fun _ => yields_error
  next min _ => exact closingBrace_yields (by simp)
  next => exact yields_error

theorem ordered_atom (a : Atom) : (atom f a).regex.Ordered := by
  cases a <;> trivial

theorem element_yields {c : Char} (hd : d.Ordered) : Yields (fun found => found.1.Ordered) (element f d c s) := by
  have hrepeat {min : Nat} {max : Option Nat} (rest : List Char) (h : ∀ m ∈ max, min ≤ m) :
      Yields (fun found => found.1.Ordered) (do return (← d.repeatLast min max, rest)) :=
    (hd.repeatLast h).bind fun _ hd => yields_ok hd
  unfold element
  split
  next => exact yields_true.bind fun _ _ => yields_ok (hd.push trivial)
  next => exact hrepeat _ nofun
  next => exact hrepeat _ nofun
  next => exact hrepeat _ (by simp)
  next => exact counts_yields.bind fun _ h => hrepeat _ h
  next => exact yields_true.bind fun _ _ => yields_ok (hd.push (ordered_atom _))
  next => exact yields_true.bind fun _ _ => yields_ok (hd.push trivial)
  next => exact yields_ok (hd.push trivial)
  next => exact yields_ok (hd.push trivial)
  next => exact yields_ok (hd.push trivial)

theorem group_yields (hd : d.Ordered) : Yields (fun found => found.1.regex.Ordered) (group f names d n s) := by
  induction n generalizing f names d s with
  | zero => exact yields_error
  | succ n ih =>
    rw [group_succ]
    split
    next => exact yields_ok hd.result
    next => exact yields_ok hd.result
    next => exact ih hd.split
    next =>
      refine yields_true.bind fun (header, names, rest) _ => ?_
      cases header with
      | settings flags => exact ih hd.pushSettings
      | group flags captures =>
        refine (ih Draft.ordered_start).bind fun (inside, names, rest) hinside => ?_
        cases rest with
        | nil => exact yields_error
        | cons c rest => exact ih (hd.push hinside)
    next => exact (element_yields hd).bind fun _ hd => ih hd

end Parse

theorem parse_ordered {s : List Char} {r : Regex} (h : parse s = .ok r) : r.Ordered := by
  have hyields : Yields Ordered (parse s) := by
    refine (Parse.group_yields Draft.ordered_start).bind fun (piece, names, rest) hpiece => ?_
    refine yields_ite (fun _ => yields_error) fun _ => yields_ite (fun _ => yields_error) fun _ => ?_
    exact yields_ite (fun _ => yields_error) fun _ => yields_ok hpiece
  exact hyields r h

end LeftCorner.Regex
