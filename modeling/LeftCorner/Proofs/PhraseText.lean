import LeftCorner.Proofs.Splicing

/-!
# What the text of a phrase tells

The text of a phrase tells everything but the splicing. To see that, texts are read from the outside in. A choice or a
sequence shows its elements and, behind the first of them, which of the two it is. An element shows a phrase and a bound
or none. And what stands under a bound is a term or a name, or is in parentheses, which its first character tells.
-/

namespace LeftCorner

open Text

namespace Phrase

/-- What can stand behind a whole text: it ends there, or the parentheses around it do. -/
def afterText : List Char := [')']

/-- What can stand behind an element of a choice or a sequence: also the space before the next element. -/
def afterItem : List Char := [' ', ')']

/-- What can stand behind a phrase that is under a bound or could be: also the bound. -/
def afterShown : List Char := [' ', ')', '<']

theorem afterText_subset : afterText ⊆ afterItem := by simp [afterText, afterItem]

theorem afterItem_subset : afterItem ⊆ afterShown := by simp [afterItem, afterShown]

theorem afterShown_subset : afterShown ⊆ RuleName.reserved := by simp [afterShown, RuleName.reserved]

end Phrase

open Phrase (afterText afterItem afterShown)

namespace Bound

theorem isDigit_of_mem_toString {n : Level} {c : Char} (h : c ∈ (toString n).toList) : c.isDigit := by
  rw [Nat.toString_eq_repr, Nat.toList_repr] at h
  exact Nat.isDigit_of_mem_toDigits (by decide) (by decide) h

theorem eq_of_toString_eq {n m : Level} (h : (toString n).toList = (toString m).toList) : n = m := by
  rw [Nat.toString_eq_repr, Nat.toString_eq_repr, Nat.toList_repr, Nat.toList_repr] at h
  rw [← Nat.ofDigitChars_ten_toDigits (n := n), h, Nat.ofDigitChars_ten_toDigits]

theorem toString_append_ne (n : Level) (x y : List Char) : (toString n).toList ++ x ≠ '=' :: y := by
  intro h
  cases hn : (toString n).toList with
  | nil => simp at hn
  | cons c cs =>
    have hc : c.isDigit := isDigit_of_mem_toString (n := n) (hn ▸ List.mem_cons_self)
    rw [hn] at h
    obtain ⟨rfl, -⟩ := List.cons.inj h
    exact absurd hc (by decide)

theorem toString_append_inj {n m : Level} {x y : List Char} (hx : StopsAt afterItem x) (hy : StopsAt afterItem y)
    (h : (toString n).toList ++ x = (toString m).toList ++ y) : n = m ∧ x = y := by
  have hdigit : ∀ c ∈ afterItem, ¬ c.isDigit := by simp [afterItem]
  have hstop : ∀ k : Level, ∀ c ∈ (toString k).toList, c ∉ afterItem := fun k c hc hcs =>
    hdigit c hcs (isDigit_of_mem_toString hc)
  obtain ⟨hnm, hxy⟩ := append_inj_of_not_mem (hstop n) (hstop m) hx hy h
  exact ⟨eq_of_toString_eq hnm, hxy⟩

theorem text_append_inj {b b' : Bound} {x y : List Char} (hx : StopsAt afterItem x) (hy : StopsAt afterItem y)
    (h : b.text.toList ++ x = b'.text.toList ++ y) : b = b' ∧ x = y := by
  have hbelow : ∀ n x, (below n).text.toList ++ x = '<' :: ((toString n).toList ++ x) := by simp [text]
  have hatMost : ∀ n x, (atMost n).text.toList ++ x = '<' :: '=' :: ((toString n).toList ++ x) := by simp [text]
  cases b with
  | below n =>
    rw [hbelow] at h
    cases b' with
    | below m =>
      rw [hbelow] at h
      obtain ⟨rfl, hxy⟩ := toString_append_inj hx hy (List.cons.inj h).2
      exact ⟨rfl, hxy⟩
    | atMost m =>
      rw [hatMost] at h
      exact absurd (List.cons.inj h).2 (toString_append_ne n _ _)
  | atMost n =>
    rw [hatMost] at h
    cases b' with
    | below m =>
      rw [hbelow] at h
      exact absurd (List.cons.inj h).2.symm (toString_append_ne m _ _)
    | atMost m =>
      rw [hatMost] at h
      obtain ⟨rfl, hxy⟩ := toString_append_inj hx hy (List.cons.inj (List.cons.inj h).2).2
      exact ⟨rfl, hxy⟩

/-- What stands behind a phrase for the bound that it is under, if there is one. -/
def shown : Option Bound → List Char
  | none => []
  | some b => b.text.toList

theorem stopsAt_shown {stops : List Char} (hs : '<' ∈ stops) {x : List Char} (hx : StopsAt stops x) :
    (b : Option Bound) → StopsAt stops (shown b ++ x)
  | none => hx
  | some (below n) | some (atMost n) => by simpa [shown, text] using hs

theorem ne_shown_append {x : List Char} (hx : StopsAt afterItem x) (b : Bound) (y : List Char) :
    x ≠ b.text.toList ++ y := by
  rintro rfl
  cases b <;> exact absurd hx (by simp [StopsAt, text, afterItem])

theorem shown_append_inj {b b' : Option Bound} {x y : List Char} (hx : StopsAt afterItem x)
    (hy : StopsAt afterItem y) (h : shown b ++ x = shown b' ++ y) : b = b' ∧ x = y := by
  match b, b' with
  | none, none => exact ⟨rfl, h⟩
  | none, some b' => exact absurd h (ne_shown_append hx b' y)
  | some b, none => exact absurd h.symm (ne_shown_append hy b x)
  | some b, some b' =>
    obtain ⟨rfl, hxy⟩ := text_append_inj hx hy h
    exact ⟨rfl, hxy⟩

end Bound

namespace Phrase

/-- The phrase that stands under a bound, or the phrase itself if it is under none. -/
def inner : Phrase → Phrase
  | bounded e _ => e
  | e => e

def bound? : Phrase → Option Bound
  | bounded _ b => some b
  | _ => none

/-- What is joined in a choice or a sequence. -/
def items : Phrase → List Phrase
  | choice es | sequence es => es
  | e => [e]

/-- What stands between spaces and between the items of a phrase, if there are several. -/
def joint : Phrase → Char
  | sequence _ => '+'
  | _ => '|'

def separator (e : Phrase) : List Char := [' ', e.joint, ' ']

variable {e f : Phrase}

theorem eq_of_inner_eq (hi : e.inner = f.inner) (hb : e.bound? = f.bound?) : e = f := by
  cases e <;> cases f <;> simp_all [inner, bound?]

theorem Flat.exists_items (he : e.Flat) : ∃ a as, e.items = a :: as := by
  cases he with
  | term | rule | bounded => exact ⟨_, [], rfl⟩
  | choice hl | sequence hl => exact List.exists_cons_of_length_pos (Nat.lt_of_succ_lt hl)

/-- Only sequences are joined by `+`, and they have more than one item. -/
theorem Flat.joint_of_items (he : e.Flat) {a : Phrase} (hi : e.items = [a]) : e.joint = '|' := by
  cases he with
  | sequence hl =>
    rw [items] at hi
    simp [hi] at hl
  | _ => rfl

theorem Flat.eq_of_items_eq (he : e.Flat) (hf : f.Flat) (hi : e.items = f.items) (hj : e.joint = f.joint) :
    e = f := by
  cases he <;> cases hf <;> grind [items, joint]

theorem Flat.inner (he : e.Flat) : e.inner.Flat := by
  cases he with
  | bounded h => exact h
  | term h => exact .term h
  | rule h => exact .rule h
  | choice hl h hs => exact .choice hl h hs
  | sequence hl h hs => exact .sequence hl h hs

/-- What a phrase shows as an element of a choice or a sequence, if it is not spliced there. -/
def item (e : Phrase) : List Char := shown .underBound e.inner ++ Bound.shown e.bound?

theorem item_bounded (e : Phrase) (b : Bound) : (bounded e b).item = (bounded e b).text.toList := by
  rw [text, String.toList_append]
  rfl

theorem shown_eq_item {position : Position} (hp : position ≠ .underBound) (h : ¬ e.splices position) :
    shown position e = e.item := by
  cases e with
  | bounded e b => cases position <;> first | exact absurd rfl hp | exact (item_bounded e b).symm
  | term | rule => exact (List.append_nil _).symm
  | choice es | sequence es =>
    cases position <;> first | exact absurd rfl hp | exact absurd rfl h | exact (List.append_nil _).symm

/-- The text of a flat phrase is that of its items. -/
theorem Flat.toList_text (he : e.Flat) : e.text.toList = e.separator.intercalate (e.items.map item) := by
  cases he with
  | @term t _ => exact (List.append_nil _).symm.trans List.intercalate_singleton.symm
  | rule => exact (List.append_nil _).symm.trans List.intercalate_singleton.symm
  | @bounded e b _ => exact (item_bounded e b).symm.trans List.intercalate_singleton.symm
  | choice _ _ hs =>
    rw [toList_text_choice]
    exact congrArg _ (List.map_congr_left fun e he => shown_eq_item (by simp) (hs e he))
  | sequence _ _ hs =>
    rw [toList_text_sequence]
    exact congrArg _ (List.map_congr_left fun e he => shown_eq_item (by simp) (hs e he))

theorem Flat.items_flat (he : e.Flat) : ∀ a ∈ e.items, a.Flat := by
  cases he with
  | term h => simpa [items] using Flat.term h
  | rule h => simpa [items] using Flat.rule h
  | bounded h => simpa [items] using Flat.bounded h
  | choice _ h | sequence _ h => exact h

/-- An item shows where it ends if what it shows of the phrase under its bound does. -/
theorem delimited_item (he : Delimited (shown .underBound) Flat afterShown e.inner) :
    Delimited item Flat afterItem e := by
  intro f hf x y hx hy h
  rw [item, item, List.append_assoc, List.append_assoc] at h
  obtain ⟨hi, hrest⟩ := he f.inner hf.inner _ _ (Bound.stopsAt_shown (by decide) (hx.mono afterItem_subset) e.bound?)
    (Bound.stopsAt_shown (by decide) (hy.mono afterItem_subset) f.bound?) h
  obtain ⟨hb, hxy⟩ := Bound.shown_append_inj hx hy hrest
  exact ⟨eq_of_inner_eq hi hb, hxy⟩

/-- A whole text shows where it ends if its items do: behind the last of them there is no space. -/
theorem Flat.delimited_text (he : e.Flat) (hitems : ∀ a ∈ e.items, Delimited item Flat afterItem a) :
    Delimited (fun e => e.text.toList) Flat afterText e := by
  intro f hf x y hx hy h
  obtain ⟨a, as, hi⟩ := he.exists_items
  obtain ⟨b, bs, hi'⟩ := hf.exists_items
  have hflat := hf.items_flat
  rw [hi'] at hflat
  rw [hi] at hitems
  obtain ⟨ha, has⟩ := List.forall_mem_cons.mp hitems
  obtain ⟨hb, hbs⟩ := List.forall_mem_cons.mp hflat
  simp only [he.toList_text, hf.toList_text, hi, hi', intercalate_map_cons, List.append_assoc] at h
  obtain ⟨hab, hrest⟩ := ha b hb _ _ (stopsAt_preceded (by decide) (hx.mono afterText_subset) as)
    (stopsAt_preceded (by decide) (hy.mono afterText_subset) bs) h
  have hjoint : e.joint = f.joint := by
    match as, bs with
    | [], [] => rw [he.joint_of_items hi, hf.joint_of_items hi']
    | [], b' :: bs => exact absurd hrest (preceded_ne (by decide) hx b' bs y)
    | a' :: as, [] => exact absurd hrest.symm (preceded_ne (by decide) hy a' as x)
    | a' :: as, b' :: bs => exact (List.cons.inj (List.cons.inj hrest).2).1
  rw [hjoint] at hrest
  obtain ⟨hasbs, hxy⟩ := Delimited.preceded (by decide) (by decide) afterText_subset has hbs hx hy hrest
  exact ⟨he.eq_of_items_eq hf (by rw [hi, hi', hab, hasbs]) hjoint, hxy⟩

variable {position : Position} {q : Char}

theorem shown_literal (s : String) : shown position (literal s) = '\'' :: (s.toList ++ ['\'']) := by
  simp [literal, shown, enclose, needsParens, text, Term.text]

theorem shown_pattern (p : Pattern) :
    shown position (term (.pattern p)) = '/' :: (p.source.toList ++ ['/']) := by
  simp [shown, enclose, needsParens, text, Term.text]

theorem shown_rule (name : RuleName) : shown position (rule name) = name.toList := by
  simp [shown, enclose, needsParens, text]

theorem shown_enclosed (h : e.needsParens position) : shown position e = '(' :: (e.text.toList ++ [')']) := by
  simp [shown, enclose, h]

/-- The character that opens what a phrase shows under a bound, if it is no name. -/
def opening : Phrase → Option Char
  | term (.literal _) => some '\''
  | term (.pattern _) => some '/'
  | rule _ => none
  | bounded .. | choice _ | sequence _ => some '('

theorem exists_rule_of_opening (h : e.opening = none) : ∃ name, e = rule name := by
  cases e with
  | term t => cases t <;> cases h
  | rule name => exact ⟨name, rfl⟩
  | bounded | choice | sequence => cases h

theorem exists_shown_of_opening (h : e.opening = some q) :
    q ∈ RuleName.reserved ∧ ∃ z, shown .underBound e = q :: z := by
  cases e with
  | term t =>
    cases t <;> cases h
    · exact ⟨by decide, _, shown_literal _⟩
    · exact ⟨by decide, _, shown_pattern _⟩
  | rule name => cases h
  | bounded | choice | sequence =>
    cases h
    exact ⟨by decide, _, shown_enclosed rfl⟩

/-- The first character of a name is none that opens another phrase. -/
theorem ne_opened {name : RuleName} (hn : name.Readable) (hq : e.opening = some q) (x y : List Char) :
    shown .underBound (rule name) ++ x ≠ shown .underBound e ++ y := by
  intro h
  obtain ⟨hq, z, hz⟩ := exists_shown_of_opening hq
  rw [shown_rule, hz] at h
  cases hname : name.toList with
  | nil => exact hn.1 (String.toList_inj.mp hname)
  | cons c cs =>
    rw [hname] at h
    obtain ⟨rfl, -⟩ := List.cons.inj h
    exact hn.2 c (hname ▸ List.mem_cons_self) hq

theorem Flat.opening_eq (he : e.Flat) (hf : f.Flat) {x y : List Char}
    (h : shown .underBound e ++ x = shown .underBound f ++ y) : e.opening = f.opening := by
  cases hoe : e.opening with
  | none =>
    obtain ⟨name, rfl⟩ := exists_rule_of_opening hoe
    cases he with
    | rule hn =>
      cases hof : f.opening with
      | none => rfl
      | some q => exact absurd h (ne_opened hn hof x y)
  | some q =>
    cases hof : f.opening with
    | none =>
      obtain ⟨name, rfl⟩ := exists_rule_of_opening hof
      cases hf with
      | rule hn => exact absurd h.symm (ne_opened hn hoe y x)
    | some q' =>
      obtain ⟨-, z, hz⟩ := exists_shown_of_opening hoe
      obtain ⟨-, z', hz'⟩ := exists_shown_of_opening hof
      rw [hz, hz'] at h
      obtain ⟨rfl, -⟩ := List.cons.inj h
      rfl

/-- What stands between two marks shows where it ends if the mark is not in it. -/
theorem quoted_append_inj {s t x y : List Char} (hs : q ∉ s) (ht : q ∉ t)
    (h : q :: (s ++ [q]) ++ x = q :: (t ++ [q]) ++ y) : s = t ∧ x = y := by
  have h : s ++ q :: x = t ++ q :: y := by simpa using h
  have hmark : ∀ z : List Char, StopsAt [q] (q :: z) := by simp
  have hplain : ∀ {z : List Char}, q ∉ z → ∀ c ∈ z, c ∉ [q] := by
    intro z hz c hc hcq
    exact hz (List.mem_singleton.mp hcq ▸ hc)
  obtain ⟨hst, hxy⟩ := append_inj_of_not_mem (hplain hs) (hplain ht) (hmark x) (hmark y) h
  exact ⟨hst, (List.cons.inj hxy).2⟩

theorem delimited_term {t : Term} (ht : t.Readable) :
    Delimited (shown .underBound) Flat afterShown (term t) := by
  intro f hf x y _ _ h
  have ho := (Flat.term ht).opening_eq hf h
  cases hf with
  | @term u hu =>
    match t, u with
    | .literal s, .literal s' =>
      have h : '\'' :: (s.toList ++ ['\'']) ++ x = '\'' :: (s'.toList ++ ['\'']) ++ y := by
        rwa [← shown_literal, ← shown_literal]
      obtain ⟨hs, hxy⟩ := quoted_append_inj ht hu h
      exact ⟨congrArg literal (String.toList_inj.mp hs), hxy⟩
    | .pattern p, .pattern p' =>
      rw [shown_pattern, shown_pattern] at h
      obtain ⟨hs, hxy⟩ := quoted_append_inj ht hu h
      obtain rfl : p = p' := RegexEngine.Pattern.eq_of_source_eq (String.toList_inj.mp hs)
      exact ⟨rfl, hxy⟩
    | .literal s, .pattern p | .pattern p, .literal s => simp [opening] at ho
  | rule | bounded | choice | sequence => cases t <;> simp [opening] at ho

theorem delimited_rule {name : RuleName} (hn : name.Readable) :
    Delimited (shown .underBound) Flat afterShown (rule name) := by
  intro f hf x y hx hy h
  have ho := (Flat.rule hn).opening_eq hf h
  obtain ⟨name', rfl⟩ := exists_rule_of_opening ho.symm
  cases hf with
  | rule hn' =>
    rw [shown_rule, shown_rule] at h
    obtain ⟨hnames, hxy⟩ := append_inj_of_not_mem hn.2 hn'.2 (hx.mono afterShown_subset)
      (hy.mono afterShown_subset) h
    exact ⟨congrArg rule (String.toList_inj.mp hnames), hxy⟩

theorem needsParens_of_opening (h : e.opening = some '(') : e.needsParens .underBound := by
  cases e with
  | term t => cases t <;> cases h
  | rule name => cases h
  | bounded | choice | sequence => rfl

theorem delimited_enclosed (he : e.Flat) (ho : e.opening = some '(')
    (htext : Delimited (fun e => e.text.toList) Flat afterText e) :
    Delimited (shown .underBound) Flat afterShown e := by
  intro f hf x y _ _ h
  have hof : f.opening = some '(' := (he.opening_eq hf h).symm.trans ho
  have hclose : ∀ z, StopsAt afterText (')' :: z) := by simp [afterText]
  rw [shown_enclosed (needsParens_of_opening ho), shown_enclosed (needsParens_of_opening hof)] at h
  obtain ⟨rfl, hxy⟩ := htext f hf (')' :: x) (')' :: y) (hclose x) (hclose y) (by simpa using h)
  exact ⟨rfl, (List.cons.inj hxy).2⟩

/-- What shows where it ends in parentheses does so under a bound and as an element. -/
theorem Flat.delimited_of_items (he : e.Flat) (ho : e.opening = some '(') (hi : e.inner = e)
    (hitems : ∀ a ∈ e.items, Delimited item Flat afterItem a) :
    Delimited (shown .underBound) Flat afterShown e ∧ Delimited item Flat afterItem e := by
  have hshown := delimited_enclosed he ho (he.delimited_text hitems)
  exact ⟨hshown, delimited_item (hi.symm ▸ hshown)⟩

/-- The induction is on the phrase: what it shows under a bound comes from its text, its text from its items, and what
an item shows from the phrase under its bound. -/
theorem Flat.delimited (he : e.Flat) :
    Delimited (shown .underBound) Flat afterShown e ∧ Delimited item Flat afterItem e := by
  induction he with
  | term ht => exact ⟨delimited_term ht, delimited_item (delimited_term ht)⟩
  | rule hn => exact ⟨delimited_rule hn, delimited_item (delimited_rule hn)⟩
  | @bounded e b he ih =>
    have hflat : (Phrase.bounded e b).Flat := .bounded he
    have hitem : Delimited item Flat afterItem (Phrase.bounded e b) := delimited_item ih.1
    have htext := hflat.delimited_text (by simpa [items] using hitem)
    exact ⟨delimited_enclosed hflat rfl htext, hitem⟩
  | choice hl h hs ih => exact (Flat.choice hl h hs).delimited_of_items rfl rfl fun a ha => (ih a ha).2
  | sequence hl h hs ih => exact (Flat.sequence hl h hs).delimited_of_items rfl rfl fun a ha => (ih a ha).2

theorem Flat.eq_of_text_eq (he : e.Flat) (hf : f.Flat) (h : e.text = f.text) : e = f := by
  have htext := he.delimited_text fun a ha => (he.items_flat a ha).delimited.2
  exact (htext f hf [] [] stopsAt_nil stopsAt_nil (congrArg (fun s => s.toList ++ []) h)).1

/-- Readable phrases have the same text if and only if they are the same once they are spliced. -/
theorem text_eq_iff_splice_eq (he : e.Readable) (hf : f.Readable) : e.text = f.text ↔ e.splice = f.splice := by
  constructor
  · intro h
    rw [← he.text_splice, ← hf.text_splice] at h
    exact he.flat_splice.eq_of_text_eq hf.flat_splice h
  · intro h
    rw [← he.text_splice, ← hf.text_splice, h]

theorem sums_text_eq_iff_splice_eq :
    let group : Phrase := choice [rule "b", literal "+"]
    let e : Phrase := sequence [rule "a", sequence [group, (rule "c_1").tighterThan 20]]
    let f : Phrase := sequence [sequence [rule "a", group], (rule "c_1").tighterThan 20]
    e.Readable ∧ f.Readable ∧ e.splice = f.splice ∧ e.text = f.text := by
  intro group e f
  have hname : ∀ name ∈ ["a", "b", "c_1"], (rule name).Readable := by
    have hwords : ["a", "b", "c_1"].all fun name => !name.isEmpty && name.toList.all Unicode.isWord := by decide
    intro name hn
    have hword : name ≠ "" ∧ ∀ c ∈ name.toList, Unicode.isWord c := by
      simpa using List.all_eq_true.mp hwords name hn
    exact .rule (RuleName.readable_of_isWord hword.1 hword.2)
  have hplus : (literal "+").Readable := .term (by simp [Term.Readable])
  have hgroup : group.Readable := .choice (by simp) (by simp [hname, hplus])
  have hc : ((rule "c_1").tighterThan 20).Readable := .bounded (by simp [hname])
  have he : e.Readable :=
    .sequence (by simp) (by simpa [hname] using Readable.sequence (by simp) (by simp [hgroup, hc]))
  have hf : f.Readable :=
    .sequence (by simp) (by simpa [hc] using Readable.sequence (by simp) (by simp [hgroup, hname]))
  have hsplice : e.splice = f.splice := by decide
  exact ⟨he, hf, hsplice, (text_eq_iff_splice_eq he hf).mpr hsplice⟩

end Phrase

end LeftCorner
