import LeftCorner.Node.Text
import LeftCorner.Proofs.Delimiting

/-!
# What the text of a tree tells

The text of a tree tells all of it but the levels. It has no lengths in it, so again it is read from the outside in: an
angle bracket at the front shows a token, which the next closing angle bracket ends, whatever else is in the token; any
other front begins the name of a rule, which an opening parenthesis ends, and a closing one in the place of a child
shows that there are no more children.
-/

namespace LeftCorner

open Text

namespace Node

/-- The characters that can stand around the name of a rule in the text of a node. -/
def marks : List Char := [' ', '(', ')', '<']

/-- No name of a rule has one of the characters in it that can stand around it, and no token has the bracket in it that
ends it. -/
inductive Plain : Node → Prop where
  | terminal {t : String} (ht : '>' ∉ t.toList) : Plain (terminal t)
  | tree {rule : RuleName} {level : Level} {children : List Node} (hr : ∀ c ∈ rule.toList, c ∉ marks)
      (h : ∀ n ∈ children, Plain n) : Plain (tree rule level children)

mutual

/-- The node with the same rules and tokens in the same places, but all levels forgotten. -/
def withoutLevels : Node → Node
  | terminal t => terminal t
  | tree r _ cs => tree r 0 (withoutLevelsAll cs)

def withoutLevelsAll : List Node → List Node
  | [] => []
  | c :: cs => withoutLevels c :: withoutLevelsAll cs

end

theorem withoutLevelsAll_eq_map (cs : List Node) : withoutLevelsAll cs = cs.map withoutLevels := by
  induction cs with
  | nil => rfl
  | cons c cs ih => simp [withoutLevelsAll, ih]

mutual

/-- Levels do not show. -/
theorem text_withoutLevels : ∀ n : Node, n.withoutLevels.text = n.text
  | terminal _ => rfl
  | tree r l cs => by rw [withoutLevels, text, text, texts_withoutLevelsAll cs]

theorem texts_withoutLevelsAll : ∀ cs : List Node, texts (withoutLevelsAll cs) = texts cs
  | [] => rfl
  | c :: cs => by rw [withoutLevelsAll, texts, texts, text_withoutLevels c, texts_withoutLevelsAll cs]

end

mutual

theorem withoutLevels_withoutLevels : ∀ n : Node, n.withoutLevels.withoutLevels = n.withoutLevels
  | terminal _ => rfl
  | tree r l cs => by rw [withoutLevels, withoutLevels, withoutLevelsAll_withoutLevelsAll cs]

theorem withoutLevelsAll_withoutLevelsAll : ∀ cs : List Node,
    withoutLevelsAll (withoutLevelsAll cs) = withoutLevelsAll cs
  | [] => rfl
  | c :: cs => by
    rw [withoutLevelsAll, withoutLevelsAll, withoutLevels_withoutLevels c, withoutLevelsAll_withoutLevelsAll cs]

end

theorem Plain.withoutLevels {n : Node} (hn : n.Plain) : n.withoutLevels.Plain := by
  induction hn with
  | terminal ht => exact .terminal ht
  | @tree rule level children hr _ ih =>
    rw [Node.withoutLevels, withoutLevelsAll_eq_map]
    refine .tree hr fun n hn => ?_
    obtain ⟨c, hc, rfl⟩ := List.mem_map.mp hn
    exact ih c hc

theorem withoutLevels_tree_eq_self {rule : RuleName} {level : Level} {children : List Node} :
    (tree rule level children).withoutLevels = tree rule level children ↔
      level = 0 ∧ ∀ c ∈ children, c.withoutLevels = c := by
  have hmap : children.map Node.withoutLevels = children ↔ ∀ c ∈ children, c.withoutLevels = c := by
    simpa using List.map_inj_left (f := Node.withoutLevels) (g := id) (l := children)
  rw [withoutLevels, withoutLevelsAll_eq_map, Node.tree.injEq, hmap, eq_comm (a := 0)]
  simp

def chars (n : Node) : List Char := n.text.toList

variable {rule rule' : RuleName} {level : Level} {x y : List Char}

theorem chars_terminal (t : String) : (terminal t).chars = '<' :: (t.toList ++ ['>']) := by
  simp [chars, text]

theorem chars_tree (rule : RuleName) (level : Level) (cs : List Node) :
    (tree rule level cs).chars = rule.toList ++ '(' :: ([' '].intercalate (cs.map chars) ++ [')']) := by
  rw [chars, text, texts_eq_map]
  simp only [String.toList_append, String.toList_intercalate, List.map_map, List.append_assoc]
  rfl

/-- What begins with the name of a rule does not begin as a token does, nor as what follows the last child. -/
theorem name_append_ne (hr : ∀ c ∈ rule.toList, c ∉ marks) {c : Char} (hc : c ∈ marks) (hne : '(' ≠ c) :
    rule.toList ++ '(' :: x ≠ c :: y := by
  intro h
  cases hn : rule.toList with
  | nil =>
    rw [hn] at h
    exact hne (List.cons.inj h).1
  | cons d ds =>
    rw [hn] at h hr
    obtain ⟨rfl, -⟩ := List.cons.inj h
    exact hr _ List.mem_cons_self hc

theorem Plain.chars_append_ne {n : Node} (hn : n.Plain) : n.chars ++ x ≠ ')' :: y := by
  cases hn with
  | terminal ht => simp [chars_terminal]
  | tree hr h =>
    rw [chars_tree, List.append_assoc]
    exact name_append_ne hr (by decide) (by decide)

/-- What can follow a node in a text is a space or a closing parenthesis. -/
abbrev Delimited (n : Node) : Prop :=
  Text.Delimited chars (fun m => m.Plain ∧ m.withoutLevels = m) [' ', ')'] n

/-- Children show where they end: a closing parenthesis is no part of a list of children, and does not begin a child. -/
theorem children_inj {cs ds : List Node} (hcs : ∀ c ∈ cs, c.Plain ∧ c.Delimited)
    (hds : ∀ d ∈ ds, d.Plain ∧ d.withoutLevels = d)
    (h : [' '].intercalate (cs.map chars) ++ ')' :: x = [' '].intercalate (ds.map chars) ++ ')' :: y) :
    cs = ds ∧ x = y := by
  cases cs with
  | nil =>
    cases ds with
    | nil => exact ⟨rfl, (List.cons.inj h).2⟩
    | cons d ds =>
      rw [intercalate_map_cons, List.append_assoc] at h
      exact absurd h.symm (hds d List.mem_cons_self).1.chars_append_ne
  | cons c cs =>
    cases ds with
    | nil =>
      rw [intercalate_map_cons, List.append_assoc] at h
      exact absurd h (hcs c List.mem_cons_self).1.chars_append_ne
    | cons d ds =>
      -- With a space before the first child too, both are lists of children with a separator before each.
      have h : preceded [' '] chars (c :: cs) ++ ')' :: x = preceded [' '] chars (d :: ds) ++ ')' :: y := by
        rw [intercalate_map_cons, intercalate_map_cons] at h
        simpa [preceded] using h
      have hends : ∀ z, StopsAt [')'] (')' :: z) := by simp
      obtain ⟨hchildren, hxy⟩ := Delimited.preceded (by decide) (by decide) (by decide) (fun n hn => (hcs n hn).2) hds
        (hends x) (hends y) h
      exact ⟨hchildren, (List.cons.inj hxy).2⟩

/-- The induction is on the node: a list of children shows where it ends once each child does. -/
theorem Plain.delimited {n : Node} (hn : n.Plain) (hl : n.withoutLevels = n) : n.Delimited := by
  induction hn with
  | @terminal t ht =>
    intro m hm x y _ _ h
    obtain ⟨hm, -⟩ := hm
    cases hm with
    | @terminal u hu =>
      rw [chars_terminal, chars_terminal] at h
      have hplain : ∀ {s : String}, '>' ∉ s.toList → ∀ c ∈ s.toList, c ∉ ['>'] :=
        fun hs c hc he => hs (List.mem_singleton.mp he ▸ hc)
      have hends : ∀ z, StopsAt ['>'] ('>' :: z) := by simp
      obtain ⟨htu, hxy⟩ := append_inj_of_not_mem (hplain ht) (hplain hu) (hends x) (hends y) (by simpa using h)
      exact ⟨congrArg Node.terminal (String.toList_inj.mp htu), (List.cons.inj hxy).2⟩
    | tree hr _ =>
      rw [chars_terminal, chars_tree, List.append_assoc] at h
      exact absurd h.symm (name_append_ne hr (by decide) (by decide))
  | @tree rule level children hr hchildren ih =>
    obtain ⟨rfl, hlevels⟩ := withoutLevels_tree_eq_self.mp hl
    intro m hm x y _ _ h
    obtain ⟨hm, hm'⟩ := hm
    cases hm with
    | terminal =>
      rw [chars_terminal, chars_tree, List.append_assoc] at h
      exact absurd h (name_append_ne hr (by decide) (by decide))
    | @tree rule' level' children' hr' hchildren' =>
      obtain ⟨rfl, hlevels'⟩ := withoutLevels_tree_eq_self.mp hm'
      have hname : ∀ {r : RuleName}, (∀ c ∈ r.toList, c ∉ marks) → ∀ c ∈ r.toList, c ∉ ['('] :=
        fun hr c hc he => hr c hc (List.mem_singleton.mp he ▸ by decide)
      have hends : ∀ z, StopsAt ['('] ('(' :: z) := by simp
      rw [chars_tree, chars_tree] at h
      obtain ⟨hrule, hinside⟩ := append_inj_of_not_mem (hname hr) (hname hr') (hends _) (hends _) (by simpa using h)
      obtain ⟨hall, hxy⟩ := children_inj (fun c hc => ⟨hchildren c hc, ih c hc (hlevels c hc)⟩)
        (fun d hd => ⟨hchildren' d hd, hlevels' d hd⟩) (List.cons.inj hinside).2
      exact ⟨by rw [String.toList_inj.mp hrule, hall], hxy⟩

theorem Plain.eq_of_text_eq {n m : Node} (hn : n.Plain) (hm : m.Plain) (h : n.text = m.text) :
    n.withoutLevels = m.withoutLevels := by
  have hc : n.withoutLevels.chars ++ [] = m.withoutLevels.chars ++ [] := by
    rw [chars, chars, text_withoutLevels, text_withoutLevels, h]
  exact (hn.withoutLevels.delimited (withoutLevels_withoutLevels n) m.withoutLevels
    ⟨hm.withoutLevels, withoutLevels_withoutLevels m⟩ [] [] stopsAt_nil stopsAt_nil hc).1

end Node

/-- Trees in which no name of a rule has a parenthesis, an opening angle bracket or a space in it, and no token a closing
angle bracket, have one text if and only if they have the same rules, the same shape and the same tokens throughout. -/
theorem Tree.text_eq_iff_withoutLevels_eq {t u : Tree} (ht : t.toNode.Plain) (hu : u.toNode.Plain) :
    t.text = u.text ↔ t.toNode.withoutLevels = u.toNode.withoutLevels := by
  constructor
  · intro h
    exact ht.eq_of_text_eq hu h
  · intro h
    rw [text, text, ← Node.text_withoutLevels t.toNode, h, Node.text_withoutLevels]

/-- Tokens and names may be empty, and a token may hold a space. One tree has the token `a b` where another has two
tokens, and a third differs from the first in levels alone. -/
theorem Tree.spaced_text_eq_iff_withoutLevels_eq :
    let t : Tree := ⟨"e", 0, [.terminal "a b", .tree "" 0 [], .terminal ""]⟩
    let u : Tree := ⟨"e", 0, [.terminal "a", .terminal "b", .tree "" 0 [], .terminal ""]⟩
    let v : Tree := ⟨"e", 20, [.terminal "a b", .tree "" 10 [], .terminal ""]⟩
    t.toNode.Plain ∧ u.toNode.Plain ∧ v.toNode.Plain ∧ t.text ≠ u.text ∧ t.text = v.text := by
  intro t u v
  have hterminal : ∀ s ∈ ["a b", "a", "b", ""], (Node.terminal s).Plain := by
    have hs : ∀ s ∈ ["a b", "a", "b", ""], '>' ∉ s.toList := by decide
    exact fun s h => .terminal (hs s h)
  have hempty : ∀ level, (Node.tree "" level []).Plain := fun level => .tree (by simp) (by simp)
  have hname : ∀ c ∈ "e".toList, c ∉ Node.marks := by simp [Node.marks]
  have ht : t.toNode.Plain := .tree hname (by simp [t, hterminal, hempty])
  have hu : u.toNode.Plain := .tree hname (by simp [u, hterminal, hempty])
  have hv : v.toNode.Plain := .tree hname (by simp [v, hterminal, hempty])
  refine ⟨ht, hu, hv, fun h => ?_, (text_eq_iff_withoutLevels_eq ht hv).mpr rfl⟩
  have hshape := (text_eq_iff_withoutLevels_eq ht hu).mp h
  exact absurd hshape (by decide)

end LeftCorner
