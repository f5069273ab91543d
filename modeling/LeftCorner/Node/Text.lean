import LeftCorner.Node.Basic

/-!
# The two texts of a node

`Node.text` shows the whole tree: `sum(<1> <+> <2>)`. `Node.render` shows how tokens group and no more:
a tree with one child is shown as that child, so `1*2+1` becomes `[[1 * 2] + 1]`.
-/

namespace LeftCorner

namespace Node

mutual

/-- The whole node: a terminal in angle brackets, a tree as its rule over its children. -/
def text : Node → String
  | terminal t => "<" ++ t ++ ">"
  | tree r _ cs => r ++ "(" ++ " ".intercalate (texts cs) ++ ")"

def texts : List Node → List String
  | [] => []
  | c :: cs => text c :: texts cs

end

instance : ToString Node := ⟨text⟩

mutual

/-- How the tokens under a node group. A tree without children leaves only its rule to show. -/
def render : Node → String
  | terminal t => t
  | tree r _ cs => renderChildren r cs

/-- How the tokens under the children of a rule group: an only child needs no brackets. -/
def renderChildren (rule : RuleName) : List Node → String
  | [] => rule ++ "()"
  | c :: cs =>
    if cs.isEmpty then render c else "[" ++ " ".intercalate (render c :: renders cs) ++ "]"

def renders : List Node → List String
  | [] => []
  | c :: cs => render c :: renders cs

end

theorem texts_eq_map (cs : List Node) : texts cs = cs.map text := by
  induction cs with
  | nil => rfl
  | cons c cs ih => simp [texts, ih]

theorem renders_eq_map (cs : List Node) : renders cs = cs.map render := by
  induction cs with
  | nil => rfl
  | cons c cs ih => simp [renders, ih]

section Render

variable {rule : RuleName} {level : Level}

@[simp] theorem render_only (c : Node) : (tree rule level [c]).render = c.render := by
  simp [render, renderChildren]

@[simp] theorem render_branching (c d : Node) (cs : List Node) :
    (tree rule level (c :: d :: cs)).render = "[" ++ " ".intercalate ((c :: d :: cs).map render) ++ "]" := by
  simp [render, renderChildren, renders, renders_eq_map]

/-- A tree shows no more of its children than their renderings. -/
theorem render_tree_congr {cs ds : List Node} (h : cs.map render = ds.map render) :
    (tree rule level cs).render = (tree rule level ds).render := by
  match cs, ds, h with
  | [], [], _ => rfl
  | [c], [d], h => simpa using h
  | c :: c' :: cs, d :: d' :: ds, h => rw [render_branching, render_branching, h]
  | [_], _ :: _ :: _, h | _ :: _ :: _, [_], h => simp at h

end Render

end Node

namespace Tree

def text (t : Tree) : String := t.toNode.text

instance : ToString Tree := ⟨text⟩

/-- How the tokens under a tree group. The chain of only children that starts at it is skipped first. -/
def render (t : Tree) : String := Node.renderChildren t.chainEnd.rule t.chainEnd.children

/-- The rendering of a result that may be missing. -/
def renderOption : Option Tree → String
  | some t => t.render
  | none => "nil"

mutual

theorem renderChildren_of_chainEnd? : {n : Node} → {t : Tree} → n.chainEnd? = some t →
    Node.renderChildren t.rule t.children = n.render
  | .tree r l cs, t, h => by
    obtain rfl : (Node.chainEndBelow? cs).getD ⟨r, l, cs⟩ = t := Option.some.inj h
    cases hb : Node.chainEndBelow? cs with
    | none => rfl
    | some u => exact renderChildren_of_chainEndBelow? hb r

theorem renderChildren_of_chainEndBelow? : {cs : List Node} → {t : Tree} → Node.chainEndBelow? cs = some t →
    ∀ rule, Node.renderChildren t.rule t.children = Node.renderChildren rule cs
  | [_], _, h, _ => renderChildren_of_chainEnd? h

end

/-- An only child shows nothing of the trees above it, so a chain can be skipped. -/
theorem render_toNode (t : Tree) : t.toNode.render = t.render :=
  (renderChildren_of_chainEnd? (n := t.toNode) rfl).symm

end Tree

end LeftCorner
