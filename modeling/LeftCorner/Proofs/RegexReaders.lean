import LeftCorner.Proofs.ClosingParenthesis
import LeftCorner.Regex.Class

/-!
# Escapes and classes before a closing parenthesis

The readers of the single elements of a regular expression find the same with a `)` behind the text. Where a reader asks
what comes first, the parenthesis is none of the characters it asks for, so that it goes the same way in both texts.
-/

namespace LeftCorner.Regex

variable {s s' t rest : List Char} {c : Char} {f : Flags}

namespace Escape

theorem codePoint_closing {letter : Char} (hs : Closing s s') :
    Refines (Behind Closing) (codePoint f letter s) (codePoint f letter s') := by
  have hskip := f.closing_skip hs
  unfold codePoint
  split
  next u hu =>
    obtain ⟨t, ht, hut⟩ := hskip.eq_cons hu
    simp only [ht]
    split
    next d ds e behind htake =>
      obtain ⟨behind', htake', hbehind⟩ := Flags.closing_takeUntil (f.closing_skip hut) htake
      simp only [htake']
      cases (hexNumber? (d :: ds)).bind char? with
      | none => exact refines_error
      | some c => exact refines_ok ⟨rfl, f.closing_skip hbehind⟩
    next => exact refines_error
  next hbrace =>
    -- The longer text has no brace in this place either, so that `simp only` finds the same branch of the `match` there.
    have hbrace' := hskip.not_head (by decide) hbrace
    cases htake : f.takeWhile (fun c => (hexDigit? c).isSome) (hexLength letter) (f.skip s) with
    | mk digits behind =>
      have hdigits := f.closing_takeWhile (fun c => (hexDigit? c).isSome) (.inl (Eq.refl (hexLength letter))) hskip
        (.inl (by decide))
      obtain ⟨behind', htake', hbehind⟩ := (htake ▸ hdigits).eq_mk
      simp only [htake']
      cases (hexNumber? digits).bind char? with
      | none => exact refines_error
      | some c =>
        refine refines_ite refines_error (refines_ite refines_error ?_)
        exact refines_ok ⟨rfl, hbehind⟩

theorem property_closing {negated : Bool} (hs : Closing s s') :
    Refines (Behind Closing) (property f negated s) (property f negated s') := by
  have hskip := f.closing_skip hs
  unfold property
  split
  next u hu =>
    obtain ⟨t, ht, hut⟩ := hskip.eq_cons hu
    simp only [ht]
    cases htake : f.takeWhile (· != '}') (f.skip u).length (f.skip u) with
    | mk name behind =>
      dsimp only
      split
      next set e behind hset =>
        obtain ⟨behind', htake', hbehind⟩ := Flags.closing_takeUntil (f.closing_skip hut) htake
        simp only [htake', hset]
        exact refines_ite refines_error (refines_ok ⟨rfl, hbehind⟩)
      next => exact refines_error
  next => exact refines_error

theorem boundary_closing {kind : WordKind} (hs : Closing s s') :
    Refines (Behind Closing) (boundary f kind s) (boundary f kind s') := by
  unfold boundary
  split
  next u =>
    obtain ⟨t, rfl, ht⟩ := closing_cons.mp hs
    have hname := f.closing_takeAll (fun c => c.isAlpha || c == '-') (f.closing_skip ht) (by decide)
    dsimp only
    split
    next => exact refines_error
    next behind hne htake =>
      -- What stands in the braces is no name. Something stands there, so they are left for a count in both texts.
      rw [htake] at hname
      obtain ⟨behind', htake', hbehind⟩ := hname.eq_mk
      obtain ⟨b, bs, rfl⟩ := List.exists_cons_of_ne_nil hne
      obtain ⟨bs', rfl, -⟩ := closing_cons.mp hbehind
      simp only [htake']
      exact refines_ok ⟨rfl, hs⟩
    next name behind _ htake =>
      rw [htake] at hname
      obtain ⟨_, htake', hbrace⟩ := hname.eq_mk
      obtain ⟨behind', rfl, hbehind⟩ := closing_cons.mp hbrace
      have hfound (l : Look) : Refines (Behind Closing) (.ok (Atom.look l, behind)) (.ok (Atom.look l, behind')) :=
        refines_ok ⟨rfl, hbehind⟩
      simp only [htake']
      refine refines_ite (hfound _) (refines_ite (hfound _) ?_)
      exact refines_ite (hfound _) (refines_ite (hfound _) refines_error)
    next => exact refines_error
  next hbrace =>
    split
    next t => exact (hs.not_head (by decide) hbrace t rfl).elim
    next => exact refines_ok ⟨rfl, hs⟩

theorem read_closing (hs : Closing s s') : Refines (Behind Closing) (read f s) (read f s') := by
  cases s with
  | nil => exact refines_error
  | cons c u =>
    obtain ⟨t, rfl, ht⟩ := closing_cons.mp hs
    have hfound (a : Atom) : Refines (Behind Closing) (.ok (a, u)) (.ok (a, t)) := refines_ok ⟨rfl, ht⟩
    rw [read, read]
    refine refines_ite refines_error ?_
    refine refines_ite (codePoint_closing ht) ?_
    refine refines_ite (property_closing ht) ?_
    refine refines_ite (property_closing ht) ?_
    refine refines_ite (boundary_closing ht) ?_
    refine refines_ite (hfound _) ?_
    refine refines_ite (hfound _) ?_
    refine refines_ite (hfound _) ?_
    refine refines_ite (hfound _) ?_
    refine refines_ite (hfound _) ?_
    split
    · exact hfound _
    · exact refines_rfl.map fun _ _ h => ⟨congrArg Atom.set h, ht⟩
    · exact hfound _
    · exact refines_ite (hfound _) refines_error

end Escape

namespace Class

/-- The name in a named class, and the two characters that end it. -/
theorem name_closing {negated : Bool} (hs : Closing s s') :
    Option.Rel (Behind (Behind Closing))
      (match s.dropWhile (· != ':') with
        | ':' :: ']' :: rest =>
          (CharSet.asciiClass? (String.ofList (s.takeWhile (· != ':')))).map fun set => (negated, set, rest)
        | _ => none)
      (match s'.dropWhile (· != ':') with
        | ':' :: ']' :: rest =>
          (CharSet.asciiClass? (String.ofList (s'.takeWhile (· != ':')))).map fun set => (negated, set, rest)
        | _ => none) := by
  split
  next rest hrest =>
    obtain ⟨htaken, u, hu, hrest⟩ := hs.takeWhile hrest
    obtain ⟨rest', rfl, hbehind⟩ := closing_cons.mp hrest
    simp only [hu, htaken]
    cases CharSet.asciiClass? (String.ofList (s.takeWhile (· != ':'))) with
    | none => exact .none
    | some set => exact .some ⟨rfl, rfl, hbehind⟩
  next hrest =>
    split
    next u hu =>
      have hd := hs.dropWhile (· != ':')
      exact (hd.not_head_pair (by decide) (by decide) hrest u hu).elim
    next => exact .none

theorem named_closing (hs : Closing s s') : Option.Rel (Behind (Behind Closing)) (named? s) (named? s') := by
  unfold named?
  split
  next u =>
    obtain ⟨t, rfl, ht⟩ := closing_cons.mp hs
    split
    next negated v hcaret =>
      split at hcaret
      next w =>
        cases hcaret
        obtain ⟨w', rfl, hw⟩ := closing_cons.mp ht
        exact name_closing hw
      next hw =>
        cases hcaret
        have hw' := ht.not_head (by decide) hw
        simp only
        exact name_closing ht
  next hcolon =>
    split
    next v => exact (hs.not_head (by decide) hcolon v rfl).elim
    next => exact .none

/-- What stands at the start of a class for itself. -/
theorem hyphens_closing {negated : Bool} : Closing s s' →
    Behind (Behind Closing)
      (match f.takeWhile (· == '-') s.length s, s with
        | ([], _), ']' :: rest => (negated, (⟨none, [⟨.single ']', 0⟩]⟩ : ClassDraft), f.skip rest)
        | (hyphens, rest), _ => (negated, ⟨none, hyphens.map fun c => ⟨.single c, 0⟩⟩, rest))
      (match f.takeWhile (· == '-') s'.length s', s' with
        | ([], _), ']' :: rest => (negated, (⟨none, [⟨.single ']', 0⟩]⟩ : ClassDraft), f.skip rest)
        | (hyphens, rest), _ => (negated, ⟨none, hyphens.map fun c => ⟨.single c, 0⟩⟩, rest)) := by
  intro hs
  have hhyphens := f.closing_takeAll (· == '-') hs (by decide)
  split
  next u htake =>
    rw [htake] at hhyphens
    obtain ⟨_, htake', -⟩ := hhyphens.eq_mk
    obtain ⟨u', rfl, hu⟩ := closing_cons.mp hs
    simp only [htake']
    exact ⟨rfl, rfl, f.closing_skip hu⟩
  next hyphens rest hbracket htake =>
    rw [htake] at hhyphens
    obtain ⟨rest', htake', hrest⟩ := hhyphens.eq_mk
    have hbracket' : ∀ u, s' = ']' :: u → hyphens = [] → False := by
      rintro u rfl
      obtain ⟨v, hv⟩ := hs.head (by decide)
      exact hbracket v hv
    simp only [htake']
    exact ⟨rfl, rfl, hrest⟩

theorem opening_closing (hs : Closing s s') : Behind (Behind Closing) (opening f s) (opening f s') := by
  have hskip := f.closing_skip hs
  unfold opening
  split
  next negated v hcaret =>
    split at hcaret
    next u hu =>
      cases hcaret
      obtain ⟨t, ht, hut⟩ := hskip.eq_cons hu
      rw [ht]
      exact hyphens_closing (f.closing_skip hut)
    next hu =>
      cases hcaret
      have hu' := hskip.not_head (by decide) hu
      simp only
      exact hyphens_closing hskip

theorem member_closing (hs : Closing s s') : Refines (Behind Closing) (member f s) (member f s') := by
  unfold member
  split
  next u =>
    obtain ⟨t, rfl, ht⟩ := closing_cons.mp hs
    exact Escape.read_closing ht
  next c u hc =>
    obtain ⟨t, rfl, ht⟩ := closing_cons.mp hs
    simp only
    exact refines_ok ⟨rfl, ht⟩
  next => exact refines_error

theorem item_closing (hs : Closing s s') : Refines (Behind Closing) (item f s) (item f s') := by
  refine (member_closing hs).bind fun (first, u) _ h => ?_
  obtain ⟨u', rfl, hu⟩ := h.eq_mk
  have hskip := f.closing_skip hu
  dsimp only
  split
  next v hv =>
    obtain ⟨v', hv', hvv⟩ := hskip.eq_cons hv
    have hskip' := f.closing_skip hvv
    have halone : Refines (Behind Closing) (do return (← alone f first, '-' :: v)) (do return (← alone f first, '-' :: v')) :=
      refines_rfl.bind fun m _ hm => refines_ok ⟨hm, hvv.cons '-'⟩
    simp only [hv']
    split
    next => exact refines_error
    next w hw =>
      obtain ⟨w', hw', -⟩ := hskip'.eq_cons hw
      simp only [hw']
      exact halone
    next w hw =>
      obtain ⟨w', hw', -⟩ := hskip'.eq_cons hw
      simp only [hw']
      exact halone
    next hempty hbracket hhyphen =>
      have hbracket' := hskip'.not_head (by decide) hbracket
      have hhyphen' := hskip'.not_head (by decide) hhyphen
      have hempty' : f.skip v' = [] → False := fun h => hempty (hskip'.eq_nil h)
      simp only
      refine (member_closing hskip').bind fun (last, rest) _ h => ?_
      obtain ⟨rest', rfl, hrest⟩ := h.eq_mk
      exact refines_rfl.bind fun m _ hm => refines_ok ⟨hm, hrest⟩
  next hhyphen =>
    have hhyphen' := hskip.not_head (by decide) hhyphen
    simp only
    exact refines_rfl.bind fun m _ hm => refines_ok ⟨hm, hskip⟩

/-- The induction is on the number of steps allowed, of which the longer text may have more. -/
theorem body_closing {n m : Nat} {d : ClassDraft} (hnm : n ≤ m) (hs : Closing s s') :
    Refines (Behind Closing) (body f n d s) (body f m d s') := by
  induction n generalizing m d s s' with
  | zero => exact refines_error
  | succ n ih =>
    cases m with
    | zero => simp at hnm
    | succ m =>
      have hle := Nat.le_of_succ_le_succ hnm
      have hskip := f.closing_skip hs
      unfold body
      split
      next => exact refines_error
      next u hu =>
        obtain ⟨t, ht, hut⟩ := hskip.eq_cons hu
        simp only [ht]
        exact refines_ok ⟨rfl, hut⟩
      next u hu =>
        obtain ⟨t, ht, hut⟩ := hskip.eq_pair hu
        simp only [ht]
        exact ih hle hut
      next u hu =>
        obtain ⟨t, ht, hut⟩ := hskip.eq_pair hu
        simp only [ht]
        exact ih hle hut
      next u hu =>
        obtain ⟨t, ht, hut⟩ := hskip.eq_pair hu
        simp only [ht]
        exact ih hle hut
      next u hu =>
        obtain ⟨t, ht, hut⟩ := hskip.eq_cons hu
        simp only [ht]
        have hnamed := named_closing hut
        generalize named? u = named at hnamed ⊢
        generalize named? t = named' at hnamed ⊢
        cases hnamed with
        | @some named _ h =>
          obtain ⟨negated, set, rest⟩ := named
          obtain ⟨rest', rfl, hrest⟩ := h.eq_pair
          refine refines_ite ?_ ?_
          · exact refines_rfl.bind fun set _ hset => hset ▸ ih hle hrest
          · exact ih hle hrest
        | none =>
          have hinner := opening_closing (f := f) hut
          generalize opening f u = opened at hinner ⊢
          obtain ⟨negated, inner, rest⟩ := opened
          obtain ⟨rest', ht, hrest⟩ := hinner.eq_pair
          simp only [ht]
          refine (ih hle hrest).bind fun (inside, rest) _ h => ?_
          obtain ⟨rest', rfl, hrest⟩ := h.eq_mk
          exact refines_rfl.bind fun set _ hset => hset ▸ ih hle hrest
      next hempty hclose hinter hdiff hsymm hopen =>
        have hempty' : f.skip s' = [] → False := fun h => hempty (hskip.eq_nil h)
        have hclose' := hskip.not_head (by decide) hclose
        have hopen' := hskip.not_head (by decide) hopen
        have hinter' := hskip.not_head_pair (by decide) (by decide) hinter
        have hdiff' := hskip.not_head_pair (by decide) (by decide) hdiff
        have hsymm' := hskip.not_head_pair (by decide) (by decide) hsymm
        simp only
        refine (item_closing hskip).bind fun (m, rest) _ h => ?_
        obtain ⟨rest', rfl, hrest⟩ := h.eq_mk
        exact ih hle hrest

theorem read_closing (hs : Closing s s') : Refines (Behind Closing) (read f s) (read f s') := by
  have hopening := opening_closing (f := f) hs
  unfold read
  generalize opening f s = opened at hopening ⊢
  obtain ⟨negated, d, rest⟩ := opened
  obtain ⟨rest', hs', hrest⟩ := hopening.eq_pair
  simp only [hs']
  refine (body_closing (Nat.succ_le_succ hrest.length_le) hrest).bind fun (inside, rest) _ h => ?_
  obtain ⟨rest', rfl, hrest⟩ := h.eq_mk
  exact refines_rfl.bind fun _ _ hset => refines_ok ⟨hset, hrest⟩

end Class

end LeftCorner.Regex
