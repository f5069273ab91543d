import LeftCorner.Proofs.ArithmeticLanguage
import LeftCorner.Proofs.Rendering

/-!
# Reading renderings of arithmetic back

The rendering of an expression has brackets around every operation, and no other brackets. Read as parentheses, they
make the tokens of an expression again, and it is parsed to the same tree: parentheses leave no trace, and with all
of them in place nothing depends on how tightly the operators bind.
-/

namespace LeftCorner

namespace Text

/-- The pieces between the spaces of a text, without those that are empty. -/
def words (cs : List Char) : List String := ((cs.splitOn ' ').filter (· ≠ [])).map String.ofList

theorem words_append (xs ys : List Char) : words (xs ++ ' ' :: ys) = words xs ++ words ys := by
  rw [words, List.splitOn_append_cons_self, List.filter_append, List.map_append]
  rfl

theorem words_of_not_mem {s : String} (hne : s ≠ "") (hs : ' ' ∉ s.toList) : words s.toList = [s] := by
  have hne : s.toList ≠ [] := by simpa using hne
  simp [words, List.splitOn_eq_singleton hs, hne]

/-- A bracket as a parenthesis with spaces around, any other character as it is. -/
def spaced : Char → List Char
  | '[' => [' ', '(', ' ']
  | ']' => [' ', ')', ' ']
  | c => [c]

theorem spaced_of_not_mem {c : Char} (h : c ∉ Node.punctuation) : spaced c = [c] := by
  unfold spaced
  split <;> simp [Node.punctuation] at h ⊢

theorem flatMap_spaced_of_not_mem {cs : List Char} (h : ∀ c ∈ cs, c ∉ Node.punctuation) :
    cs.flatMap spaced = cs := by
  induction cs with
  | nil => rfl
  | cons c cs ih =>
    obtain ⟨hc, hcs⟩ := List.forall_mem_cons.mp h
    rw [List.flatMap_cons, spaced_of_not_mem hc, ih hcs]
    rfl

theorem words_preceded {α : Type} (text : α → List Char) (as : List α) (x : List Char) :
    words (x ++ (preceded [' '] text as).flatMap spaced) =
      words x ++ as.flatMap fun a => words ((text a).flatMap spaced) := by
  induction as generalizing x with
  | nil => simp [preceded]
  | cons a as ih =>
    have h : (preceded [' '] text (a :: as)).flatMap spaced =
        ' ' :: ((text a).flatMap spaced ++ (preceded [' '] text as).flatMap spaced) := by
      simp [preceded, spaced]
    rw [h, words_append, ih, List.flatMap_cons]

/-- The tokens of a rendering: a parenthesis for each bracket, and the rest split at spaces. -/
def regroup (text : String) : List String := words (text.toList.flatMap spaced)

end Text

namespace Group

open Text

mutual

/-- The tokens of a group, with each list in parentheses. -/
def tokens : Group → List String
  | token t => [t]
  | list gs => "(" :: (tokensEach gs ++ [")"])

def tokensEach : List Group → List String
  | [] => []
  | g :: gs => tokens g ++ tokensEach gs

end

theorem tokensEach_eq_flatMap (gs : List Group) : tokensEach gs = gs.flatMap tokens := by
  induction gs with
  | nil => rfl
  | cons g gs ih => simp [tokensEach, ih]

/-- The tokens of a group can be read off its text. -/
theorem Legible.regroup_text {g : Group} (hg : g.Legible) : regroup g.text = g.tokens := by
  induction hg with
  | @token t hne ht =>
    rw [regroup, text, flatMap_spaced_of_not_mem ht, words_of_not_mem hne fun h => ht _ h (by decide), tokens]
  | @list g gs _ ih =>
    have hopen : words [' ', '('] = ["("] := by decide
    have hclose : words [')', ' '] = [")"] := by decide
    have htext : (Group.list (g :: gs)).chars.flatMap spaced =
        [' ', '('] ++
          ' ' :: (g.chars.flatMap spaced ++ (preceded [' '] chars gs).flatMap spaced ++ ' ' :: [')', ' ']) := by
      rw [chars_list]
      simp [spaced]
    have hitems : (g :: gs).flatMap (fun g => words (g.chars.flatMap spaced)) = (g :: gs).flatMap tokens :=
      List.flatMap_congr ih
    calc words ((Group.list (g :: gs)).chars.flatMap spaced)
        = "(" :: (words (g.chars.flatMap spaced) ++ gs.flatMap (fun g => words (g.chars.flatMap spaced)) ++ [")"]) := by
          rw [htext, words_append, words_append, words_preceded, hopen, hclose]
          rfl
      _ = "(" :: ((g :: gs).flatMap tokens ++ [")"]) := by rw [← hitems, List.flatMap_cons]
      _ = (Group.list (g :: gs)).tokens := by rw [tokens, tokensEach_eq_flatMap]

end Group

namespace Arithmetic

open Text

/-- No space or bracket is part of a number. -/
def PlainNumbers (ts : List String) : Prop := ∀ s ∈ ts, number.accepts s → ∀ c ∈ s.toList, c ∉ Node.punctuation

theorem PlainNumbers.mono {ts us : List String} (h : PlainNumbers ts) (hs : us ⊆ ts) : PlainNumbers us :=
  fun s hu => h s (hs hu)

theorem legible_number (n : Number) (h : PlainNumbers [n.1]) : (Node.terminal n.1).Legible := by
  refine .terminal ?_ (h n (List.mem_singleton.mpr rfl) n.2)
  intro hempty
  have hno : number.accepts "" = false := by decide
  have hyes := n.2
  rw [hempty, hno] at hyes
  cases hyes

theorem legible_operator {op : Operator} (ho : op ∈ operators.operators) : (Node.terminal op.token).Legible := by
  rcases mem_operators.mp ho with rfl | rfl | rfl | rfl
  all_goals exact .terminal (by decide) (by simp [add, sub, mul, div, Node.punctuation])

namespace Derivation

variable {layer : Layer}

theorem legible_image (d : Derivation layer) (hd : PlainNumbers d.tokens) : d.image.toNode.Legible := by
  induction d with
  | number n => exact .only (.only (legible_number n hd))
  | group e ih => exact ih (hd.mono (by simp [tokens]))
  | lone h d ih => exact ih hd
  | operation op ho l r ihl ihr =>
    have hl := ihl (hd.mono (by simp [tokens]))
    have hop := legible_operator (Layer.mem_of_mem_operators ho).1
    have hr := ihr (hd.mono (by simp [tokens]))
    exact .only (.branching (by simp [hl, hop, hr]))

theorem collapse_exprTree (t : Tree) : (exprTree t).toNode.collapse = t.toNode.collapse := by
  simp [exprTree, Tree.toNode]

theorem tokens_collapse_tree (op : Operator) (l r : Tree) :
    (op.tree l r).toNode.collapse.tokens =
      "(" :: (l.toNode.collapse.tokens ++ op.token :: r.toNode.collapse.tokens ++ [")"]) := by
  simp [Operator.tree, Tree.toNode, Group.tokens, Group.tokensEach, Node.collapse]

/-- Every expression is a factor if its operations are put in parentheses, and these are what the rendering shows. -/
theorem exists_factor (d : Derivation layer) :
    ∃ f : Derivation .factor, f.image = d.image ∧ f.tokens = d.image.toNode.collapse.tokens := by
  induction d with
  | number n => exact ⟨number n, rfl, by rw [image, collapse_exprTree]; rfl⟩
  | group e ih => exact ih
  | lone h d ih => exact ih
  | @operation layer op ho l r ihl ihr =>
    obtain ⟨f, hf, hft⟩ := ihl
    obtain ⟨g, hg, hgt⟩ := ihr
    have himage : exprTree (op.tree f.image g.image) = (operation op ho l r).image := by rw [image, hf, hg]
    have htokens : "(" :: (f.tokens ++ op.token :: g.tokens ++ [")"]) =
        (operation op ho l r).image.toNode.collapse.tokens := by
      rw [image, collapse_exprTree, tokens_collapse_tree, hft, hgt]
    cases layer with
    | factor => cases ho
    | product => exact ⟨group (toSum (operation op ho (toProduct f) g)), himage, htokens⟩
    | sum => exact ⟨group (operation op ho (toSum (toProduct f)) (toProduct g)), himage, htokens⟩

end Derivation

/-- A block that was parsed of plain numbers is parsed again of the tokens that the rendering of its expression shows,
and to the same tree. -/
theorem parseAll_regroup_render {ts : List String} {n : Nat} {t : Tree} (hts : Pending.endMarker ∉ ts)
    (hplain : PlainNumbers ts) (ht : grammar.parseAll n "block" ts = some (.ok t)) :
    ∃ e, t.child? 0 = some e ∧ ∀ m, grammar.allowance (.ofTokens (regroup e.render) Pending.endMarker) ≤ m →
      grammar.parseAll m "block" (regroup e.render) = some (.ok t) := by
  rw [Grammar.parseAll] at ht
  cases h : grammar.parse n "block" .standard (.ofTokens ts Pending.endMarker) with
  | exhausted => simp [h] at ht
  | failed rest => simp [h] at ht
  | matched t' rest =>
    obtain rfl : t' = t := by simpa [h] using ht
    obtain ⟨d, rfl⟩ := exists_derivation hts h
    obtain rfl := d.tree_eq_of_parse h
    obtain ⟨f, hf, hft⟩ := d.exists_factor
    have hlegible := d.legible_image hplain
    let sum : Derivation .sum := .toSum (.toProduct f)
    have himage : sum.image = d.image := hf
    have htokens : regroup d.image.toNode.render = sum.tokens := by
      rw [← hlegible.text_collapse, hlegible.collapse.regroup_text, ← hft]
      rfl
    refine ⟨d.image.toNode, rfl, fun m hm => ?_⟩
    rw [htokens] at hm ⊢
    rw [sum.parseAll_tokens hm, himage]

theorem parseAll_regroup_render_product :
    let ts := ["2", "*", "(", "3", "+", "4", ")"]
    let e := exprTree (mul.tree (exprTree (itemTree "2")) (exprTree (add.tree (exprTree (itemTree "3"))
      (exprTree (itemTree "4")))))
    Pending.endMarker ∉ ts ∧ PlainNumbers ts ∧ grammar.parseAll 121 "block" ts = some (.ok (blockTree e)) ∧
      regroup e.render = ["(", "2", "*", "(", "3", "+", "4", ")", ")"] ∧
      grammar.parseAll 121 "block" (regroup e.render) = some (.ok (blockTree e)) := by
  intro ts e
  let number (s : String) (h : number.accepts s) : Derivation .product := .toProduct (.number ⟨s, h⟩)
  let inside : Derivation .sum := .operation add List.mem_cons_self (.toSum (number "3" rfl)) (number "4" rfl)
  let d : Derivation .sum := .toSum (.operation mul List.mem_cons_self (number "2" rfl) (.group inside))
  have hts : Pending.endMarker ∉ ts := by decide
  have hplain : PlainNumbers ts := by simp [PlainNumbers, ts, Node.punctuation]
  have hparse : grammar.parseAll 121 "block" ts = some (.ok (blockTree e)) := d.parseAll_tokens (by decide)
  have hregroup : regroup e.render = ["(", "2", "*", "(", "3", "+", "4", ")", ")"] := by decide
  obtain ⟨e', he', h⟩ := parseAll_regroup_render hts hplain hparse
  obtain rfl : e.toNode = e' := Option.some.inj he'
  exact ⟨hts, hplain, hparse, hregroup, h 121 (hregroup ▸ by decide)⟩

end Arithmetic

end LeftCorner
