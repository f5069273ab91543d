import Mathlib.Logic.Relation
import LeftCorner.Node.Text
import LeftCorner.Proofs.Delimiting

/-!
# What a rendering tells

A rendering tells how the tokens group and nothing else: not the rules, not the levels, and not the trees with an only
child. Tokens are shown bare, so it has to be read from the outside in: a token ends at the space or the bracket behind
it, and a bracket at the front shows that what begins there is a group.
-/

namespace LeftCorner

open Relation Text

/-- Tokens and groups of them. -/
inductive Group where
  | token (token : String)
  | list (groups : List Group)

/-- The characters that a rendering puts around tokens. -/
def Node.punctuation : List Char := [' ', '[', ']']

namespace Group

mutual

def text : Group → String
  | token t => t
  | list gs => "[" ++ " ".intercalate (texts gs) ++ "]"

def texts : List Group → List String
  | [] => []
  | g :: gs => text g :: texts gs

end

theorem texts_eq_map (gs : List Group) : texts gs = gs.map text := by
  induction gs with
  | nil => rfl
  | cons g gs ih => simp [texts, ih]

def chars (g : Group) : List Char := g.text.toList

theorem chars_list (g : Group) (gs : List Group) :
    (list (g :: gs)).chars = '[' :: (g.chars ++ preceded [' '] chars gs ++ [']']) := by
  have h : (list (g :: gs)).chars = '[' :: ([' '].intercalate ((g :: gs).map chars) ++ [']']) := by
    rw [chars, text, texts_eq_map]
    simp only [String.toList_append, String.toList_intercalate, List.map_map]
    rfl
  rw [h, intercalate_map_cons]

/-- No group and no token is empty, and no token has a space or a bracket in it. -/
inductive Legible : Group → Prop where
  | token {t : String} (hne : t ≠ "") (ht : ∀ c ∈ t.toList, c ∉ Node.punctuation) : Legible (token t)
  | list {g : Group} {gs : List Group} (h : ∀ x ∈ g :: gs, Legible x) : Legible (list (g :: gs))

/-- A token, with something behind it that ends it, does not begin as a group does. -/
theorem token_append_ne {t : String} (ht : ∀ c ∈ t.toList, c ∉ Node.punctuation) {x y : List Char}
    (hx : StopsAt [' ', ']'] x) : t.toList ++ x ≠ '[' :: y := by
  intro h
  cases ht' : t.toList with
  | nil =>
    obtain rfl : x = '[' :: y := by simpa [ht'] using h
    exact absurd (stopsAt_cons.mp hx) (by decide)
  | cons c cs =>
    rw [ht'] at h ht
    obtain ⟨rfl, -⟩ := List.cons.inj h
    exact absurd (ht _ List.mem_cons_self) (by decide)

/-- The induction is on the group: what stands in brackets shows where it ends once its parts do. -/
theorem Legible.delimited {g : Group} (hg : g.Legible) : Delimited chars Legible [' ', ']'] g := by
  induction hg with
  | @token t _ ht =>
    intro g' hg' x y hx hy h
    cases hg' with
    | @token u _ hu =>
      have hstops : [' ', ']'] ⊆ Node.punctuation := by simp [Node.punctuation]
      obtain ⟨htu, hxy⟩ := append_inj_of_not_mem ht hu (hx.mono hstops) (hy.mono hstops) h
      exact ⟨congrArg Group.token (String.toList_inj.mp htu), hxy⟩
    | list hgs' =>
      rw [chars_list] at h
      exact absurd h (token_append_ne ht hx)
  | @list g gs hgs ih =>
    intro g' hg' x y hx hy h
    rw [chars_list] at h
    cases hg' with
    | @token u _ hu => exact absurd h.symm (token_append_ne hu hy)
    | @list g' gs' hall =>
      have hends : ∀ z, StopsAt [']'] (']' :: z) := by simp
      -- With a space before the first part too, both are lists of parts with a separator before each.
      have h : preceded [' '] chars (g :: gs) ++ ']' :: x = preceded [' '] chars (g' :: gs') ++ ']' :: y := by
        rw [chars_list] at h
        simpa [preceded] using h
      obtain ⟨hparts, hxy⟩ := Delimited.preceded (by decide) (by decide) (by decide) ih hall (hends x) (hends y) h
      exact ⟨congrArg Group.list hparts, (List.cons.inj hxy).2⟩

theorem Legible.eq_of_text_eq {g h : Group} (hg : g.Legible) (hh : h.Legible) (ht : g.text = h.text) : g = h :=
  (hg.delimited h hh [] [] stopsAt_nil stopsAt_nil (congrArg (fun s => s.toList ++ []) ht)).1

end Group

namespace Node

mutual

/-- How the tokens under a node group: a tree with an only child groups them as that child does. -/
def collapse : Node → Group
  | terminal t => .token t
  | tree _ _ cs => collapseChildren cs

def collapseChildren : List Node → Group
  | [] => .list []
  | c :: cs => if cs.isEmpty then collapse c else .list (collapse c :: collapseAll cs)

def collapseAll : List Node → List Group
  | [] => []
  | c :: cs => collapse c :: collapseAll cs

end

variable {rule : RuleName} {level : Level}

theorem collapseAll_eq_map (cs : List Node) : collapseAll cs = cs.map collapse := by
  induction cs with
  | nil => rfl
  | cons c cs ih => simp [collapseAll, ih]

@[simp] theorem collapse_only (c : Node) : (tree rule level [c]).collapse = c.collapse := by
  simp [collapse, collapseChildren]

@[simp] theorem collapse_branching (c d : Node) (cs : List Node) :
    (tree rule level (c :: d :: cs)).collapse = .list ((c :: d :: cs).map collapse) := by
  simp [collapse, collapseChildren, collapseAll, collapseAll_eq_map]

/-- No tree is without children, no token is empty, and none has a space or a bracket in it. -/
inductive Legible : Node → Prop where
  | terminal {t : String} (hne : t ≠ "") (ht : ∀ c ∈ t.toList, c ∉ punctuation) : Legible (terminal t)
  | only {rule : RuleName} {level : Level} {c : Node} (h : Legible c) : Legible (tree rule level [c])
  | branching {rule : RuleName} {level : Level} {c d : Node} {cs : List Node} (h : ∀ n ∈ c :: d :: cs, Legible n) :
      Legible (tree rule level (c :: d :: cs))

theorem legible_tree {children : List Node} :
    (tree rule level children).Legible ↔ children ≠ [] ∧ ∀ c ∈ children, c.Legible := by
  constructor
  · intro h
    cases h with
    | only h => simpa using h
    | branching h => exact ⟨by simp, h⟩
  · intro h
    obtain ⟨hne, h⟩ := h
    cases children with
    | nil => exact absurd rfl hne
    | cons c cs =>
      cases cs with
      | nil => exact .only (h c List.mem_cons_self)
      | cons d cs => exact .branching h

theorem Legible.collapse {n : Node} (hn : n.Legible) : n.collapse.Legible := by
  induction hn with
  | terminal hne ht => exact .token hne ht
  | only _ ih => rwa [collapse_only]
  | @branching _ _ c d cs _ ih =>
    rw [collapse_branching]
    refine .list fun g hg => ?_
    have hg : g ∈ (c :: d :: cs).map Node.collapse := hg
    obtain ⟨c', hc', rfl⟩ := List.mem_map.mp hg
    exact ih c' hc'

theorem Legible.text_collapse {n : Node} (hn : n.Legible) : n.collapse.text = n.render := by
  induction hn with
  | terminal => rfl
  | only _ ih => rwa [collapse_only, render_only]
  | @branching _ _ c d cs _ ih =>
    have hmap : (c :: d :: cs).map (Group.text ∘ Node.collapse) = (c :: d :: cs).map render :=
      List.map_congr_left ih
    rw [collapse_branching, render_branching, Group.text, Group.texts_eq_map, List.map_map, hmap]

/-- A node and the same node with a tree of one child put around a part of it. -/
inductive Wraps : Node → Node → Prop where
  | here (rule : RuleName) (level : Level) (n : Node) : Wraps n (tree rule level [n])
  | inside {n m : Node} (h : Wraps n m) (rule : RuleName) (level : Level) (before after : List Node) :
      Wraps (tree rule level (before ++ n :: after)) (tree rule level (before ++ m :: after))

theorem Wraps.render_eq {n m : Node} (h : Wraps n m) : m.render = n.render := by
  induction h with
  | here rule level n => exact render_only n
  | inside _ rule level before after ih => exact render_tree_congr (by simp [ih])

theorem render_eq_of_wraps {n m : Node} (h : ReflTransGen Wraps n m) : m.render = n.render := by
  induction h with
  | refl => rfl
  | tail _ hw ih => exact hw.render_eq.trans ih

theorem Legible.leaves_ne_nil {n : Node} (hn : n.Legible) : n.leaves ≠ [] := by
  induction hn with
  | terminal => simp [leaves]
  | only _ ih => simpa [leaves, leavesAll] using ih
  | @branching _ _ c d cs _ ih => simp [leaves, leavesAll, ih c List.mem_cons_self]

theorem Legible.space_not_mem {n : Node} (hn : n.Legible) : ∀ t ∈ n.leaves, ' ' ∉ t.toList := by
  induction hn with
  | terminal _ ht =>
    intro t' ht'
    obtain rfl := List.mem_singleton.mp ht'
    exact fun hc => ht _ hc List.mem_cons_self
  | only _ ih => simpa [leaves, leavesAll] using ih
  | branching _ ih =>
    intro t ht
    rw [leaves, leavesAll_eq_flatMap] at ht
    obtain ⟨c, hc, ht⟩ := List.mem_flatMap.mp ht
    exact ih c hc t ht

def isBracket (c : Char) : Bool := c == '[' || c == ']'

theorem filter_toList_render_branching (c d : Node) (cs : List Node) :
    (tree rule level (c :: d :: cs)).render.toList.filter (!isBracket ·) =
      [' '].intercalate ((c :: d :: cs).map fun n => n.render.toList.filter (!isBracket ·)) := by
  have h : (tree rule level (c :: d :: cs)).render.toList =
      ['['] ++ [' '].intercalate ((c :: d :: cs).map fun n => n.render.toList) ++ [']'] := by
    rw [render_branching, String.toList_append, String.toList_append, String.toList_intercalate, List.map_map]
    rfl
  have hopen : ['['].filter (!isBracket ·) = [] := by decide
  have hclose : [']'].filter (!isBracket ·) = [] := by decide
  have hspace : [' '].filter (!isBracket ·) = [' '] := by decide
  rw [h, List.filter_append, List.filter_append, hopen, hclose, filter_intercalate, hspace, List.map_map,
    List.nil_append, List.append_nil]
  rfl

theorem Legible.filter_toList_render {n : Node} (hn : n.Legible) :
    n.render.toList.filter (!isBracket ·) = [' '].intercalate (n.leaves.map String.toList) := by
  induction hn with
  | @terminal t _ ht =>
    have hplain : ∀ c ∈ t.toList, !isBracket c := by
      intro c hc
      have h := ht c hc
      simp only [punctuation, List.mem_cons, not_or] at h
      simp [isBracket, h.2.1, h.2.2.1]
    simpa [leaves, render] using hplain
  | only _ ih => simpa [leaves, leavesAll] using ih
  | @branching _ _ c d cs hc ih =>
    have hmap : ((c :: d :: cs).map fun n => n.render.toList.filter (!isBracket ·)) =
        ((c :: d :: cs).map fun n => n.leaves.map String.toList).map [' '].intercalate := by
      rw [List.map_map]
      exact List.map_congr_left ih
    have hne : ∀ l ∈ (c :: d :: cs).map fun n => n.leaves.map String.toList, l ≠ [] := by
      intro l hl
      obtain ⟨c', hc', rfl⟩ := List.mem_map.mp hl
      simpa using (hc c' hc').leaves_ne_nil
    rw [filter_toList_render_branching, hmap, intercalate_flatten hne, leaves, leavesAll_eq_flatMap,
      List.map_flatMap, List.flatMap_def]

/-- The rendering without its brackets is the tokens, with a space between every two. -/
theorem Legible.splitOn_render {n : Node} (hn : n.Legible) :
    ((n.render.toList.filter (!isBracket ·)).splitOn ' ').map String.ofList = n.leaves := by
  have hspace : ∀ l ∈ n.leaves.map String.toList, ' ' ∉ l := by
    intro l hl
    obtain ⟨t, ht, rfl⟩ := List.mem_map.mp hl
    exact hn.space_not_mem t ht
  rw [hn.filter_toList_render, List.splitOn_intercalate ' ' hspace (by simpa using hn.leaves_ne_nil), List.map_map]
  simp [Function.comp_def]

end Node

open Node

/-- Nodes without childless trees, the tokens of which are not empty and have no space or bracket in them, are rendered
alike if and only if their tokens group alike. So trees with one child put around parts of a node do not show, a tree is
rendered alike whether it is taken as a node or its chain of only children is skipped first, and without its brackets
the rendering is the tokens. -/
theorem Node.rendering_faithful {n m : Node} (hn : n.Legible) (hm : m.Legible) :
    (n.render = m.render ↔ n.collapse = m.collapse) ∧
      (∀ n', ReflTransGen Wraps n n' → n'.render = n.render) ∧
      (∀ t : Tree, t.toNode = n → t.render = n.render) ∧
      ((n.render.toList.filter (!isBracket ·)).splitOn ' ').map String.ofList = n.leaves := by
  refine ⟨⟨fun h => ?_, fun h => ?_⟩, fun n' => render_eq_of_wraps, fun t ht => ?_, hn.splitOn_render⟩
  · rw [← hn.text_collapse, ← hm.text_collapse] at h
    exact hn.collapse.eq_of_text_eq hm.collapse h
  · rw [← hn.text_collapse, ← hm.text_collapse, h]
  · rw [← ht, Tree.render_toNode]

theorem Node.products_rendering_faithful :
    let product : Node := .tree "mul" 10 [.terminal "1", .terminal "*", .terminal "2"]
    let sum : Node := .tree "add" 20 [.tree "expr" 0 [product], .terminal "+", .terminal "1"]
    let block : Node := .tree "block" 0 [.tree "sub" 10 [product, .terminal "+", .tree "item" 0 [.terminal "1"]]]
    sum.Legible ∧ block.Legible ∧ sum.render = block.render ∧
      ((sum.render.toList.filter (!isBracket ·)).splitOn ' ').map String.ofList = ["1", "*", "2", "+", "1"] := by
  intro product sum block
  have hterminal : ∀ t ∈ ["1", "*", "2", "+"], (terminal t).Legible := by
    have hplain : ∀ t ∈ ["1", "*", "2", "+"], t ≠ "" ∧ ∀ c ∈ t.toList, c ∉ punctuation := by simp [punctuation]
    exact fun t ht => .terminal (hplain t ht).1 (hplain t ht).2
  have hproduct : product.Legible := legible_tree.mpr (by simp [hterminal])
  have hsum : sum.Legible := legible_tree.mpr (by simp [hterminal, legible_tree, hproduct])
  have hblock : block.Legible := legible_tree.mpr (by simp [hterminal, legible_tree, hproduct])
  obtain ⟨h, -, -, hleaves⟩ := rendering_faithful hsum hblock
  exact ⟨hsum, hblock, h.mpr rfl, hleaves⟩

end LeftCorner
