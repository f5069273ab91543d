import LeftCorner.Regex.Engine
import LeftCorner.Proofs.RepetitionBounds

/-!
# The engine is as documented

`Regex.engine` keeps what `RegexEngine.Documented` promises. A group at the end of an expression is read up to its own
parenthesis: what stands in it, if it is an expression of its own, is read there as it is alone, with the parenthesis behind
it. What is accepted with an assertion before the group is within the limits without it, too.
-/

namespace LeftCorner.Regex

open Parse RegexEngine

variable {e s x : List Char} {r : Regex} {piece : Piece} {names : List (List Char)} {d : Draft} {text : List Char}

/-- Where the matches of an expression are. They begin at places of the text. -/
def Found (r : Regex) (text : List Char) (start stop : Nat) : Prop := start ≤ text.length ∧ r.Matches text start stop

theorem parse_eq_ok_iff : parse s = .ok r ↔ ∃ piece names, group {} [] .start (s.length + 1) s = .ok (piece, names, []) ∧
    piece.depth ≤ maxDepth ∧ piece.cost ≤ maxCost ∧ piece.regex = r := by
  unfold parse
  cases group {} [] .start (s.length + 1) s with
  | error fault => exact ⟨nofun, fun ⟨_, _, h, _⟩ => nomatch h⟩
  | ok found =>
    obtain ⟨piece, names, rest⟩ := found
    change (if rest ≠ [] then _ else if maxDepth < piece.depth then _ else if maxCost < piece.cost then _ else _) = _ ↔ _
    constructor
    · intro h
      split_ifs at h with hrest hdepth hcost
      cases h
      exact ⟨piece, names, by rw [not_not.mp hrest], Nat.not_lt.mp hdepth, Nat.not_lt.mp hcost, rfl⟩
    · rintro ⟨_, _, h, hdepth, hcost, rfl⟩
      cases h
      rw [if_neg (fun h => h rfl), if_neg (Nat.not_lt.mpr hdepth), if_neg (Nat.not_lt.mpr hcost)]

/-- What is read in some steps is read in more steps, too. -/
theorem group_mono {f : Flags} {n m : Nat} (hnm : n ≤ m) : Refines Eq (group f names d n s) (group f names d m s) := by
  induction n generalizing m f names d s with
  | zero => exact refines_error
  | succ n ih =>
    obtain ⟨m, rfl⟩ := Nat.exists_eq_succ_of_ne_zero (Nat.ne_zero_of_lt hnm)
    have hle := Nat.le_of_succ_le_succ hnm
    rw [group_succ, group_succ]
    split
    next => exact refines_rfl
    next => exact refines_rfl
    next => exact ih hle
    next =>
      refine refines_rfl.bind ?_
      rintro ⟨header, names, rest⟩ _ rfl
      cases header with
      | settings flags => exact ih hle
      | group flags captures =>
        refine (ih hle).bind ?_
        rintro ⟨inside, names, rest⟩ _ rfl
        cases rest with
        | nil => exact refines_error
        | cons c rest => exact ih hle
    next =>
      refine refines_rfl.bind ?_
      rintro _ _ rfl
      exact ih hle

/-- Reading a group that ends the text. -/
theorem group_grouped (names : List (List Char)) (d : Draft) (n : Nat) (e : List Char) :
    group {} names d (n + 1) (grouped e) =
      (group {} names .start n (e ++ [')']) >>= fun (inside, names, rest) =>
        match rest with
        | _ :: rest => group {} names (d.push (inside.group false)) n rest
        | [] => .error .unclosedGroup) := by
  rfl

theorem group_grouped_of_closed {n : Nat} (d : Draft)
    (h : group {} [] .start (n + 1) (e ++ [')']) = .ok (piece, names, [')'])) :
    group {} [] d (n + 2) (grouped e) = .ok ((d.push (piece.group false)).result, names, []) := by
  rw [group_grouped, h]
  rfl

/-- What is an expression of its own is closed by the parenthesis behind it wherever the group around it is read. A comment
that takes in the parenthesis leaves the group open. -/
theorem closed_of_reads {n : Nat} {found : Piece × List (List Char) × List Char}
    (hown : group {} [] .start (e.length + 1) e = .ok (piece, names, [])) (hn : e.length ≤ n)
    (h : group {} [] d (n + 2) (grouped e) = .ok found) :
    group {} [] .start (n + 1) (e ++ [')']) = .ok (piece, names, [')']) ∧
      found = ((d.push (piece.group false)).result, names, []) := by
  obtain ⟨inside, hinside, hfound⟩ := group_closing (Nat.succ_le_succ hn) (.inl rfl) _ hown
  obtain ⟨rest, rfl, hrest⟩ := hfound.eq_pair
  rcases closing_nil.mp hrest with rfl | rfl
  · exact ⟨hinside, Except.ok.inj (h.symm.trans (group_grouped_of_closed d hinside))⟩
  · rw [group_grouped, hinside] at h
    cases h

/-- As many steps as the text is long are enough to tell that it is closed. -/
theorem closed_of_closed {n m : Nat} (hown : group {} [] .start (e.length + 1) e = .ok (piece, names, []))
    (hn : e.length < n) (hm : e.length < m) (h : group {} [] .start n (e ++ [')']) = .ok (piece, names, [')'])) :
    group {} [] .start m (e ++ [')']) = .ok (piece, names, [')']) := by
  obtain ⟨inside, hinside, -⟩ := group_closing (Nat.le_refl _) (.inl rfl) _ hown
  obtain ⟨_, hin, rfl⟩ := group_mono hn inside hinside
  obtain ⟨_, him, rfl⟩ := group_mono hm inside hinside
  exact him.trans (hin.symm.trans h)

theorem length_grouped (e : List Char) : (grouped e).length = e.length + 4 := by
  simp [grouped]

/-- A sequence nests as deeply and costs as much as its last element, or more. -/
theorem measures_push_le (p q : Piece) :
    (Draft.start.push q).result.depth ≤ ((Draft.start.push p).push q).result.depth ∧
      (Draft.start.push q).result.cost ≤ ((Draft.start.push p).push q).result.cost := by
  constructor
  · exact Nat.le_trans (Nat.le_max_right _ _) (Nat.le_succ _)
  · exact Nat.le_add_left _ _

/-- An assertion is read before a group as it is read alone. -/
theorem exists_look_of_assertion (hx : x ∈ assertions) : ∃ l : Look, parse x = .ok (.look l) ∧ ∀ n s,
    group {} [] .start (n + 1) (x ++ '(' :: s) = group {} [] (Draft.start.push (.look l)) n ('(' :: s) := by
  simp only [assertions, List.map_cons, List.map_nil, List.mem_cons, List.not_mem_nil, or_false] at hx
  rcases hx with rfl | rfl | rfl | rfl | rfl | rfl
  · exact ⟨.textStart, rfl, fun _ _ => rfl⟩
  · exact ⟨.textEnd, rfl, fun _ _ => rfl⟩
  · exact ⟨.textStart, rfl, fun _ _ => rfl⟩
  · exact ⟨.textEnd, rfl, fun _ _ => rfl⟩
  · exact ⟨.boundary .unicode, rfl, fun _ _ => rfl⟩
  · exact ⟨.notBoundary .unicode, rfl, fun _ _ => rfl⟩

theorem holds_textStart {i : Nat} (hi : i ≤ text.length) : Look.textStart.holds (before text i) text[i]? ↔ i = 0 := by
  cases i with
  | zero => simp [Look.holds, before]
  | succ i =>
    have hlt : i < text.length := hi
    simp [Look.holds, before, hlt]

theorem found_textStart {start stop : Nat} : (look .textStart).Found text start stop ↔ start = 0 ∧ stop = 0 := by
  constructor
  · rintro ⟨hstart, rfl, hholds⟩
    obtain rfl := (holds_textStart hstart).mp hholds
    exact ⟨rfl, rfl⟩
  · rintro ⟨rfl, rfl⟩
    exact ⟨Nat.zero_le _, rfl, (holds_textStart (Nat.zero_le _)).mpr rfl⟩

/-- What stands behind an assertion begins at the place where the assertion holds. -/
theorem found_cat_look {l : Look} {start stop : Nat} : (cat (look l) r).Found text start stop ↔
    ∃ middle, (look l).Found text start middle ∧ r.Found text middle stop := by
  constructor
  · rintro ⟨hstart, _, ⟨rfl, hholds⟩, h⟩
    exact ⟨start, ⟨hstart, rfl, hholds⟩, hstart, h⟩
  · rintro ⟨_, ⟨hstart, rfl, hholds⟩, -, h⟩
    exact ⟨hstart, start, ⟨rfl, hholds⟩, h⟩

theorem eq_of_parse_grouped {g : Regex} (he : parse e = .ok r) (hg : parse (grouped e) = .ok g) : g = r := by
  obtain ⟨piece, names, hown, -, -, rfl⟩ := parse_eq_ok_iff.mp he
  obtain ⟨whole, names', hwhole, -, -, rfl⟩ := parse_eq_ok_iff.mp hg
  rw [length_grouped] at hwhole
  obtain ⟨-, hfound⟩ := closed_of_reads hown (Nat.le_add_right _ 3) hwhole
  cases hfound
  rfl

theorem parse_assertion_grouped {w : Regex} (hx : x ∈ assertions) (he : parse e = .ok r)
    (hw : parse (x ++ grouped e) = .ok w) :
    ∃ l : Look, parse x = .ok (.look l) ∧ parse (grouped e) = .ok r ∧ w = .cat (.look l) r := by
  obtain ⟨l, hl, hread⟩ := exists_look_of_assertion hx
  obtain ⟨piece, names, hown, -, -, rfl⟩ := parse_eq_ok_iff.mp he
  obtain ⟨whole, names', hwhole, hdepth, hcost, rfl⟩ := parse_eq_ok_iff.mp hw
  have hlength : (x ++ grouped e).length + 1 = x.length + e.length + 2 + 2 + 1 := by
    rw [List.length_append, length_grouped]
    omega
  have hopen : grouped e = '(' :: '?' :: ':' :: (e ++ [')']) := rfl
  rw [hlength, hopen, hread, ← hopen] at hwhole
  obtain ⟨hclosed, hfound⟩ := closed_of_reads hown (by omega) hwhole
  have hgrouped := group_grouped_of_closed .start (closed_of_closed (m := e.length + 3 + 1) hown (by omega) (by omega) hclosed)
  cases hfound
  obtain ⟨hdepth', hcost'⟩ := measures_push_le (.look l) (piece.group false)
  refine ⟨l, hl, parse_eq_ok_iff.mpr ⟨_, names, ?_, Nat.le_trans hdepth' hdepth, Nat.le_trans hcost' hcost, rfl⟩, rfl⟩
  rw [length_grouped]
  exact hgrouped

/-- The engine keeps what is promised. -/
theorem engine_documented : engine.Documented Found where
  isMatch_iff h text := by
    rw [isMatch_iff (parse_ordered h)]
    simp [Found]
  textStart h text start stop := by
    cases h
    exact found_textStart
  group he hg text start stop := by rw [eq_of_parse_grouped he hg]
  sequence hx he hw := by
    obtain ⟨l, hl, hg, rfl⟩ := parse_assertion_grouped hx he hw
    exact ⟨.look l, _, hl, hg, fun text start stop => found_cat_look⟩

end LeftCorner.Regex
