import LeftCorner.Phrase.Text
import LeftCorner.Proofs.Delimiting

/-!
# Splicing

No parentheses are put around a sequence in a sequence or around a choice in a choice, so their texts do not tell that
there was one. To splice a phrase is to put the parts of such a sequence or choice in its place. The text stays the
same, and what is left is flat: no sequence stands in a sequence and no choice in a choice.
-/

namespace LeftCorner

/-- The characters by which a text shows where a name ends. No name has any of them in it. -/
def RuleName.reserved : List Char := [' ', '\'', '(', ')', '/', '<']

def RuleName.Readable (name : RuleName) : Prop := name ≠ "" ∧ ∀ c ∈ name.toList, c ∉ reserved

theorem RuleName.readable_of_isWord {name : RuleName} (hne : name ≠ "") (h : ∀ c ∈ name.toList, Unicode.isWord c) :
    name.Readable := by
  have hall : reserved.all (!Unicode.isWord ·) := by decide
  have hr : ∀ c ∈ reserved, ¬ Unicode.isWord c := by simpa using hall
  exact ⟨hne, fun c hc hcr => hr c hcr (h c hc)⟩

/-- The quotes or slashes around what a term shows do not occur within. -/
def Term.Readable : Term → Prop
  | .literal s => '\'' ∉ s.toList
  | .pattern p => '/' ∉ p.source.toList

namespace Phrase

/-- What stands between two phrases that are joined. -/
def Position.separator : Position → String
  | .inSequence => " + "
  | .inChoice => " | "
  | .underBound => ""

/-- Whether a phrase is spliced where it stands. -/
def splices : Phrase → Position → Bool
  | sequence _, .inSequence | choice _, .inChoice => true
  | _, _ => false

/-- What is put in the place of a phrase. -/
def parts : Phrase → Position → List Phrase
  | sequence es, .inSequence | choice es, .inChoice => es
  | e, _ => [e]

mutual

/-- Puts the elements of every sequence that is an element of a sequence in its place, and likewise for choices. -/
def splice : Phrase → Phrase
  | term t => term t
  | rule name => rule name
  | bounded e bound => bounded (splice e) bound
  | choice es => choice (spliceEach .inChoice es)
  | sequence es => sequence (spliceEach .inSequence es)

def spliceEach (position : Position) : List Phrase → List Phrase
  | [] => []
  | e :: es => (splice e).parts position ++ spliceEach position es

end

/-- The terms and names show where they end, and every choice and every sequence is of two phrases at least. -/
inductive Readable : Phrase → Prop where
  | term {t : Term} (h : t.Readable) : Readable (term t)
  | rule {name : RuleName} (h : name.Readable) : Readable (rule name)
  | bounded {e : Phrase} {bound : Bound} (h : Readable e) : Readable (bounded e bound)
  | choice {es : List Phrase} (hl : 2 ≤ es.length) (h : ∀ e ∈ es, Readable e) : Readable (choice es)
  | sequence {es : List Phrase} (hl : 2 ≤ es.length) (h : ∀ e ∈ es, Readable e) : Readable (sequence es)

/-- A readable phrase in which nothing can be spliced. -/
inductive Flat : Phrase → Prop where
  | term {t : Term} (h : t.Readable) : Flat (term t)
  | rule {name : RuleName} (h : name.Readable) : Flat (rule name)
  | bounded {e : Phrase} {bound : Bound} (h : Flat e) : Flat (bounded e bound)
  | choice {es : List Phrase} (hl : 2 ≤ es.length) (h : ∀ e ∈ es, Flat e) (hs : ∀ e ∈ es, ¬ e.splices .inChoice) :
      Flat (choice es)
  | sequence {es : List Phrase} (hl : 2 ≤ es.length) (h : ∀ e ∈ es, Flat e)
      (hs : ∀ e ∈ es, ¬ e.splices .inSequence) : Flat (sequence es)

variable {e : Phrase} {position : Position}

theorem spliceEach_eq_flatMap (es : List Phrase) :
    spliceEach position es = es.flatMap fun e => e.splice.parts position := by
  induction es with
  | nil => rfl
  | cons e es ih => simp [spliceEach, ih]

theorem parts_of_not_splices (h : ¬ e.splices position) : e.parts position = [e] := by
  cases e <;> cases position <;> simp [splices, parts] at h ⊢

theorem Flat.parts_ne_nil (he : e.Flat) : e.parts position ≠ [] := by
  by_cases hs : e.splices position
  · cases he with
    | term | rule | bounded => cases position <;> simp [splices] at hs
    | choice hl | sequence hl => cases position <;> simp [parts, List.ne_nil_of_length_pos (Nat.lt_of_succ_lt hl)]
  · simp [parts_of_not_splices hs]

theorem Flat.of_mem_parts (he : e.Flat) {x : Phrase} (hx : x ∈ e.parts position) : x.Flat ∧ ¬ x.splices position := by
  by_cases hs : e.splices position
  · cases he with
    | term | rule | bounded => cases position <;> simp [splices] at hs
    | choice _ h hc | sequence _ h hc =>
      cases position <;> simp [splices] at hs
      exact ⟨h x hx, hc x hx⟩
  · rw [parts_of_not_splices hs, List.mem_singleton] at hx
    subst hx
    exact ⟨he, hs⟩

theorem length_le_spliceEach {es : List Phrase} (h : ∀ e ∈ es, e.splice.Flat) :
    es.length ≤ (spliceEach position es).length := by
  induction es with
  | nil => exact Nat.le_refl 0
  | cons e es ih =>
    obtain ⟨he, hes⟩ := List.forall_mem_cons.mp h
    have hpos : 0 < (e.splice.parts position).length := List.length_pos_iff.mpr he.parts_ne_nil
    have hle := ih hes
    simp only [spliceEach, List.length_append, List.length_cons]
    omega

theorem flat_of_mem_spliceEach {es : List Phrase} (h : ∀ e ∈ es, e.splice.Flat) {x : Phrase}
    (hx : x ∈ spliceEach position es) : x.Flat ∧ ¬ x.splices position := by
  rw [spliceEach_eq_flatMap] at hx
  obtain ⟨e, he, hx⟩ := List.mem_flatMap.mp hx
  exact (h e he).of_mem_parts hx

theorem Readable.flat_splice (he : e.Readable) : e.splice.Flat := by
  induction he with
  | term h => exact .term h
  | rule h => exact .rule h
  | bounded _ ih => exact .bounded ih
  | choice hl _ ih =>
    exact .choice (Nat.le_trans hl (length_le_spliceEach ih)) (fun x hx => (flat_of_mem_spliceEach ih hx).1)
      fun x hx => (flat_of_mem_spliceEach ih hx).2
  | sequence hl _ ih =>
    exact .sequence (Nat.le_trans hl (length_le_spliceEach ih)) (fun x hx => (flat_of_mem_spliceEach ih hx).1)
      fun x hx => (flat_of_mem_spliceEach ih hx).2

/-- What a phrase shows where it stands. -/
def shown (position : Position) (e : Phrase) : List Char := (enclose e position e.text).toList

theorem toList_text_sequence (es : List Phrase) :
    (sequence es).text.toList = Position.inSequence.separator.toList.intercalate (es.map (shown .inSequence)) := by
  rw [text, texts_eq_map, String.toList_intercalate, List.map_map]
  rfl

theorem toList_text_choice (es : List Phrase) :
    (choice es).text.toList = Position.inChoice.separator.toList.intercalate (es.map (shown .inChoice)) := by
  rw [text, texts_eq_map, String.toList_intercalate, List.map_map]
  rfl

theorem needsParens_splice (e : Phrase) (position : Position) :
    e.splice.needsParens position = e.needsParens position := by
  cases e <;> cases position <;> rfl

theorem shown_splice (h : e.splice.text = e.text) : shown position e.splice = shown position e := by
  rw [shown, shown, enclose, enclose, needsParens_splice, h]

theorem intercalate_parts (e : Phrase) (position : Position) :
    position.separator.toList.intercalate ((e.parts position).map (shown position)) = shown position e := by
  by_cases hs : e.splices position
  · cases e <;> cases position <;> simp [splices] at hs
    · exact (toList_text_choice _).symm
    · exact (toList_text_sequence _).symm
  · simp [parts_of_not_splices hs]

theorem intercalate_spliceEach {es : List Phrase} (hf : ∀ e ∈ es, e.splice.Flat)
    (ht : ∀ e ∈ es, e.splice.text = e.text) :
    position.separator.toList.intercalate ((spliceEach position es).map (shown position)) =
      position.separator.toList.intercalate (es.map (shown position)) := by
  have hne : ∀ l ∈ es.map fun e => (e.splice.parts position).map (shown position), l ≠ [] := by
    intro l hl
    obtain ⟨e, he, rfl⟩ := List.mem_map.mp hl
    simpa using (hf e he).parts_ne_nil
  have heach : ∀ e ∈ es, position.separator.toList.intercalate ((e.splice.parts position).map (shown position)) =
      shown position e := by
    intro e he
    rw [intercalate_parts, shown_splice (ht e he)]
  rw [spliceEach_eq_flatMap, List.map_flatMap, List.flatMap_def, ← Text.intercalate_flatten hne, List.map_map]
  exact congrArg _ (List.map_congr_left heach)

/-- Splicing does not show. -/
theorem Readable.text_splice (he : e.Readable) : e.splice.text = e.text := by
  induction he with
  | term | rule => rfl
  | @bounded e bound _ ih => simp only [splice, text, enclose, needsParens_splice, ih]
  | @choice es _ h ih =>
    apply String.toList_inj.mp
    rw [splice, toList_text_choice, toList_text_choice]
    exact intercalate_spliceEach (fun e he => (h e he).flat_splice) ih
  | @sequence es _ h ih =>
    apply String.toList_inj.mp
    rw [splice, toList_text_sequence, toList_text_sequence]
    exact intercalate_spliceEach (fun e he => (h e he).flat_splice) ih

end Phrase

end LeftCorner
