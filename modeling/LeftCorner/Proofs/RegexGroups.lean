import LeftCorner.Proofs.RegexReaders
import LeftCorner.Regex.Parse

/-!
# Groups before a closing parenthesis

A group runs to its closing parenthesis, or to the end of the text if it is the whole of it. So a text that is read to its
end is the same group with a `)` behind it, and the `)` is what is left. Most of what a group may have in it are elements of
their own, which `element` reads one at a time; only choices, settings and groups concern how the group goes on.
-/

namespace LeftCorner.Regex.Parse

variable {f : Flags} {names : List (List Char)} {d : Draft} {s s' : List Char} {n m : Nat}

theorem groupName_closing (hs : Closing s s') : Refines (Behind Closing) (groupName names s) (groupName names s') := by
  unfold groupName
  split
  next c cs e rest htake hdrop =>
    obtain ⟨htake', rest', hdrop', hrest⟩ := hs.takeWhile hdrop
    simp only [htake', htake, hdrop']
    exact refines_ite (refines_ok ⟨rfl, hrest⟩) refines_error
  next => exact refines_error

theorem header_closing (hs : Closing s s') : Refines (Behind (Behind Closing)) (header f names s) (header f names s') := by
  have hnamed {u t} (h : Closing u t) : Refines (Behind (Behind Closing))
      (do let found ← groupName names u; return (Header.group f true, found.1 :: names, found.2))
      (do let found ← groupName names t; return (Header.group f true, found.1 :: names, found.2)) :=
    (groupName_closing h).bind fun _ _ hname => refines_ok ⟨rfl, congrArg (· :: names) hname.1, hname.2⟩
  unfold header
  split
  next => exact refines_error
  next => exact refines_error
  next => exact refines_error
  next => exact refines_error
  next u =>
    obtain ⟨_, rfl, hmark⟩ := closing_cons.mp hs
    obtain ⟨_, rfl, hletter⟩ := closing_cons.mp hmark
    obtain ⟨t, rfl, ht⟩ := closing_cons.mp hletter
    exact hnamed ht
  next u hahead hnotAhead =>
    obtain ⟨t, rfl, ht⟩ := hs.eq_pair rfl
    have hahead' := ht.not_head (by decide) hahead
    have hnotAhead' := ht.not_head (by decide) hnotAhead
    simp only
    exact hnamed ht
  next u hahead hnotAhead hbehind hnotBehind hletter hname =>
    obtain ⟨t, rfl, ht⟩ := closing_cons.mp hs
    have hahead' := ht.not_head (by decide) hahead
    have hnotAhead' := ht.not_head (by decide) hnotAhead
    have hbehind' := ht.not_head_pair (by decide) (by decide) hbehind
    have hnotBehind' := ht.not_head_pair (by decide) (by decide) hnotBehind
    have hletter' := ht.not_head_pair (by decide) (by decide) hletter
    have hname' := ht.not_head (by decide) hname
    simp only
    refine (Flags.settings_closing ht).bind fun (flags, any, rest) _ h => ?_
    obtain ⟨rest', rfl, hrest⟩ := h.eq_pair
    dsimp only
    split
    next v =>
      obtain ⟨w, rfl, hw⟩ := closing_cons.mp hrest
      exact refines_ok ⟨rfl, rfl, hw⟩
    next c v hcolon =>
      obtain ⟨w, rfl, hw⟩ := closing_cons.mp hrest
      simp only
      exact refines_ite (refines_ok ⟨rfl, rfl, hw⟩) refines_error
    next => exact refines_error
  next hmark =>
    have hmark' := hs.not_head (by decide) hmark
    split
    case h_8 => exact refines_ok ⟨rfl, rfl, hs⟩
    all_goals exact (hmark' _ rfl).elim

theorem closing_dropLazy (hs : Closing s s') : Closing (dropLazy s) (dropLazy s') := by
  unfold dropLazy
  split
  next u =>
    obtain ⟨t, rfl, ht⟩ := closing_cons.mp hs
    exact ht
  next hlazy =>
    have hlazy' := hs.not_head (by decide) hlazy
    simp only
    exact hs

theorem count_closing (hs : Closing s s') : Refines (Behind Closing) (count f s) (count f s') := by
  have hblanks := hs.dropWhile Unicode.isWhiteSpace
  have hdigits := f.closing_takeAll Char.isDigit hblanks (by decide)
  unfold count
  dsimp only
  generalize f.takeWhile Char.isDigit _ (s.dropWhile Unicode.isWhiteSpace) = taken at hdigits ⊢
  obtain ⟨digits, rest⟩ := taken
  obtain ⟨rest', htake, hrest⟩ := hdigits.eq_mk
  have hbehind := f.closing_skip (hrest.dropWhile Unicode.isWhiteSpace)
  simp only [htake]
  split
  next => exact refines_ok ⟨rfl, hbehind⟩
  next => exact refines_ite (refines_ok ⟨rfl, hbehind⟩) refines_error

theorem closingBrace_closing {min : Nat} {max : Option Nat} : Closing s s' →
    Refines (Behind (Behind Closing))
      (match s with
        | '}' :: rest => .ok (min, max, dropLazy (f.skip rest))
        | _ => .error .repetition)
      (match s' with
        | '}' :: rest => .ok (min, max, dropLazy (f.skip rest))
        | _ => .error .repetition) := by
  intro hs
  split
  next u =>
    obtain ⟨t, rfl, ht⟩ := closing_cons.mp hs
    exact refines_ok ⟨rfl, rfl, closing_dropLazy (f.closing_skip ht)⟩
  next => exact refines_error

theorem counts_closing (hs : Closing s s') : Refines (Behind (Behind Closing)) (counts f s) (counts f s') := by
  unfold counts
  refine (count_closing (f.closing_skip hs)).bind fun (least, rest) _ h => ?_
  obtain ⟨rest', rfl, hrest⟩ := h.eq_mk
  dsimp only
  split
  next min u =>
    obtain ⟨t, rfl, ht⟩ := closing_cons.mp hrest
    have hskip := f.closing_skip ht
    simp only
    split
    next v hv =>
      obtain ⟨w, hw, hvw⟩ := hskip.eq_cons hv
      rw [hw]
      exact closingBrace_closing (hvw.cons '}')
    next hbrace =>
      have hbrace' := hskip.not_head (by decide) hbrace
      simp only
      refine (count_closing hskip).bind fun (most, rest) _ h => ?_
      obtain ⟨rest', rfl, hrest⟩ := h.eq_mk
      cases most with
      | none => exact refines_error
      | some max => exact refines_ite (closingBrace_closing hrest) refines_error
  next min hcomma =>
    have hcomma' := hrest.not_head (by decide) hcomma
    simp only
    exact closingBrace_closing hrest
  next => exact refines_error

/-- Reads one element that is no group and no setting: the draft with it, and what stands behind. -/
def element (f : Flags) (d : Draft) (c : Char) (rest : List Char) : Except Fault (Draft × List Char) :=
  match c with
  | '[' => do
    let (inside, rest) ← Class.read f rest
    return (d.push (.chars inside.set inside.depth), rest)
  | '*' => do return (← d.repeatLast 0 none, dropLazy rest)
  | '+' => do return (← d.repeatLast 1 none, dropLazy rest)
  | '?' => do return (← d.repeatLast 0 (some 1), dropLazy rest)
  | '{' => do
    let (min, max, rest) ← counts f rest
    return (← d.repeatLast min max, rest)
  | '\\' => do
    let (a, rest) ← Escape.read f rest
    return (d.push (atom f a), rest)
  | '.' => do return (d.push (.chars (← f.dot) 0), rest)
  | '^' =>
    let start := if f.multiLine then if f.crlf then .crlfLineStart else .lineStart else .textStart
    return (d.push (.look start), rest)
  | '$' =>
    let ending := if f.multiLine then if f.crlf then .crlfLineEnd else .lineEnd else .textEnd
    return (d.push (.look ending), rest)
  | c => return (d.push (.chars (f.literal c) 0), rest)

/-- One step of reading a group, with the elements told apart from what concerns the group as a whole. -/
theorem group_succ : group f names d (n + 1) s =
    match f.skip s with
    | [] => .ok (d.result, names, [])
    | ')' :: rest => .ok (d.result, names, ')' :: rest)
    | '|' :: rest => group f names d.split n rest
    | '(' :: rest => do
      let (header, names, rest) ← header f names (f.skip rest)
      match header with
      | .settings flags => group flags names d.pushSettings n rest
      | .group flags captures => do
        let (inside, names, rest) ← group flags names .start n rest
        match rest with
        | _ :: rest => group f names (d.push (inside.group captures)) n rest
        | [] => .error .unclosedGroup
    | c :: rest => element f d c rest >>= fun (d, rest) => group f names d n rest := by
  rw [group]
  generalize f.skip s = u
  split
  next => rfl
  next => rfl
  next => rfl
  next => rfl
  all_goals simp [element]

theorem element_closing {c : Char} (hs : Closing s s') : Refines (Behind Closing) (element f d c s) (element f d c s') := by
  have hrepeat (min : Nat) (max : Option Nat) {u t} (h : Closing u t) : Refines (Behind Closing)
      (do return (← d.repeatLast min max, u)) (do return (← d.repeatLast min max, t)) :=
    refines_rfl.bind fun _ _ hd => refines_ok ⟨hd, h⟩
  unfold element
  split
  next =>
    refine (Class.read_closing hs).bind fun (inside, rest) _ h => ?_
    obtain ⟨rest', rfl, hrest⟩ := h.eq_mk
    exact refines_ok ⟨rfl, hrest⟩
  next => exact hrepeat 0 none (closing_dropLazy hs)
  next => exact hrepeat 1 none (closing_dropLazy hs)
  next => exact hrepeat 0 (some 1) (closing_dropLazy hs)
  next =>
    refine (counts_closing hs).bind fun (min, max, rest) _ h => ?_
    obtain ⟨rest', rfl, hrest⟩ := h.eq_pair
    exact hrepeat min max hrest
  next =>
    refine (Escape.read_closing hs).bind fun (a, rest) _ h => ?_
    obtain ⟨rest', rfl, hrest⟩ := h.eq_mk
    exact refines_ok ⟨rfl, hrest⟩
  next => exact refines_rfl.bind fun set _ hset => refines_ok ⟨hset ▸ rfl, hs⟩
  next => exact refines_ok ⟨rfl, hs⟩
  next => exact refines_ok ⟨rfl, hs⟩
  next => exact refines_ok ⟨rfl, hs⟩

/-- A group that a text ends is ended by the parenthesis behind the text. The induction is on the number of steps allowed,
of which the longer text may have more. -/
theorem group_closing (hnm : n ≤ m) (hs : Closing s s') :
    Refines (Behind (Behind Closing)) (group f names d n s) (group f names d m s') := by
  induction n generalizing m f names d s s' with
  | zero => exact refines_error
  | succ n ih =>
    obtain ⟨m, rfl⟩ := Nat.exists_eq_succ_of_ne_zero (Nat.ne_zero_of_lt hnm)
    have hle := Nat.le_of_succ_le_succ hnm
    have hskip := f.closing_skip hs
    rw [group_succ, group_succ]
    generalize f.skip s = u at hskip ⊢
    generalize f.skip s' = t at hskip ⊢
    split
    next =>
      rcases closing_nil.mp hskip with rfl | rfl
      · exact refines_ok ⟨rfl, rfl, hskip⟩
      · exact refines_ok ⟨rfl, rfl, hskip⟩
    next u =>
      obtain ⟨t, rfl, ht⟩ := closing_cons.mp hskip
      exact refines_ok ⟨rfl, rfl, hskip⟩
    next u =>
      obtain ⟨t, rfl, ht⟩ := closing_cons.mp hskip
      exact ih hle ht
    next u =>
      obtain ⟨t, rfl, ht⟩ := closing_cons.mp hskip
      refine (header_closing (f.closing_skip ht)).bind fun (header, names, rest) _ h => ?_
      obtain ⟨rest', rfl, hrest⟩ := h.eq_pair
      cases header with
      | settings flags => exact ih hle hrest
      | group flags captures =>
        refine (ih hle hrest).bind fun (inside, names, rest) _ h => ?_
        obtain ⟨rest', rfl, hrest⟩ := h.eq_pair
        cases rest with
        | nil => exact refines_error
        | cons c rest =>
          obtain ⟨rest', rfl, hbehind⟩ := closing_cons.mp hrest
          exact ih hle hbehind
    next c u hclose hbar hopen =>
      obtain ⟨t, rfl, ht⟩ := closing_cons.mp hskip
      simp only
      refine (element_closing ht).bind fun (d, rest) _ h => ?_
      obtain ⟨rest', rfl, hrest⟩ := h.eq_mk
      exact ih hle hrest

end LeftCorner.Regex.Parse
