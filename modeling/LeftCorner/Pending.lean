import LeftCorner.Node.Text
import LeftCorner.Pattern

/-!
# Pending items

What is still to be parsed is a list of items, of which only the front is touched: an attempt takes items
from it, and puts them back if it fails; a reduction puts its node there. An item is a token that nobody
has taken yet, or a node.
-/

namespace LeftCorner

/-- Something still to be parsed. -/
inductive Item where
  | token (token : String)
  | node (node : Node)
deriving DecidableEq

namespace Item

def token? : Item → Option String
  | token s => some s
  | node _ => none

def tree? : Item → Option Tree
  | token _ => none
  | node n => n.tree?

/-- What goes back for a node that an attempt matched: for a terminal its token, as it was before. -/
def ofMatched : Node → Item
  | .terminal t => token t
  | n => node n

def leaves : Item → List String
  | token s => [s]
  | node n => n.leaves

/-- A token as it is, or the whole node. -/
def text : Item → String
  | token s => s
  | node n => n.text

/-- A token as it is, or how the tokens under a node group. -/
def render : Item → String
  | token s => s
  | node n => n.render

@[simp] theorem leaves_ofMatched (n : Node) : (ofMatched n).leaves = n.leaves := by
  cases n <;> simp [ofMatched, leaves, Node.leaves]

end Item

/-- The items still to be parsed, front first. -/
abbrev Pending := List Item

namespace Pending

/-- The token that ends every input, for rules to hold on to. -/
def endMarker : String := "$"

def ofTokens (tokens : List String) (marker : String) : Pending :=
  (tokens ++ [marker]).map .token

/-- Takes the front if it is a raw token that a term accepts. -/
def takeToken? (term : Term) : Pending → Option (String × Pending)
  | .token s :: rest => if term.accepts s then some (s, rest) else none
  | _ => none

/-- Takes the front if it is a tree that is welcome. -/
def takeTree? (welcome : Tree → Bool) : Pending → Option (Tree × Pending)
  | .node (.tree rule level children) :: rest =>
    if welcome ⟨rule, level, children⟩ then some (⟨rule, level, children⟩, rest) else none
  | _ => none

/-- Puts back what a failed attempt matched. -/
def restore (matched : List Node) (p : Pending) : Pending := matched.map .ofMatched ++ p

def leaves (p : Pending) : List String := p.flatMap Item.leaves

def text (p : Pending) : String := "[[" ++ " ".intercalate (p.map Item.text) ++ "]]"

def render (p : Pending) : String := " ".intercalate (p.map Item.render)

theorem takeToken?_eq_some {term : Term} {p rest : Pending} {s : String} :
    p.takeToken? term = some (s, rest) ↔ p = .token s :: rest ∧ term.accepts s := by
  unfold takeToken?
  split
  next => split <;> grind
  next h =>
    constructor
    · intro hp
      cases hp
    · intro hp
      exact (h s rest hp.1).elim

theorem takeTree?_eq_some {welcome : Tree → Bool} {p rest : Pending} {t : Tree} :
    p.takeTree? welcome = some (t, rest) ↔ p = .node t.toNode :: rest ∧ welcome t := by
  obtain ⟨rule, level, children⟩ := t
  unfold takeTree?
  split
  next => split <;> grind [Tree.toNode]
  next h =>
    constructor
    · intro hp
      cases hp
    · intro hp
      exact (h rule level children rest hp.1).elim

@[simp] theorem leaves_nil : leaves [] = [] := rfl

@[simp] theorem leaves_cons (i : Item) (p : Pending) : leaves (i :: p) = i.leaves ++ leaves p := rfl

@[simp] theorem leaves_append (p q : Pending) : leaves (p ++ q) = leaves p ++ leaves q := by
  simp [leaves]

@[simp] theorem leaves_ofTokens (tokens : List String) (marker : String) :
    leaves (ofTokens tokens marker) = tokens ++ [marker] := by
  induction tokens with
  | nil => rfl
  | cons t ts ih =>
    have h : ofTokens (t :: ts) marker = .token t :: ofTokens ts marker := rfl
    rw [h, leaves_cons, ih]
    rfl

@[simp] theorem restore_nil (p : Pending) : restore [] p = p := rfl

@[simp] theorem restore_append (ms ns : List Node) (p : Pending) :
    restore (ms ++ ns) p = restore ms (restore ns p) := by
  simp [restore]

/-- Putting back what was matched puts back its tokens. -/
@[simp] theorem leaves_restore (matched : List Node) (p : Pending) :
    leaves (restore matched p) = Node.leavesAll matched ++ leaves p := by
  induction matched with
  | nil => rfl
  | cons n ns ih =>
    have h : restore (n :: ns) p = .ofMatched n :: restore ns p := rfl
    simp [h, ih, Node.leavesAll]

end Pending

end LeftCorner
