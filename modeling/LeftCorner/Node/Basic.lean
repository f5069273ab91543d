import LeftCorner.Bound

/-!
# Parse nodes

A node is a terminal, made from one token, or a tree, made by reducing a rule. The functions here walk
a node and a list of nodes together: `leaves` reads the tokens off in input order, and `chainEnd?`
follows trees that have a tree for their only child down to the first that branches.
-/

namespace LeftCorner

/-- The name of a rule. Phrases refer to rules by name only; a grammar looks the name up. -/
abbrev RuleName := String

inductive Node where
  | terminal (token : String)
  | tree (rule : RuleName) (level : Level) (children : List Node)
deriving Inhabited

/-- A reduced rule: its name, the level of the alternative that matched, and what it matched. -/
structure Tree where
  rule : RuleName
  level : Level
  children : List Node

namespace Node

mutual

def decEq : (a b : Node) → Decidable (a = b)
  | terminal s, terminal t =>
    decidable_of_iff (s = t) (by simp)
  | terminal _, tree .. => isFalse (by simp)
  | tree .., terminal _ => isFalse (by simp)
  | tree r l cs, tree r' l' cs' =>
    match decEqAll cs cs' with
    | isTrue h => decidable_of_iff (r = r' ∧ l = l') (by simp [h])
    | isFalse h => isFalse (by simp [h])

def decEqAll : (as bs : List Node) → Decidable (as = bs)
  | [], [] => isTrue rfl
  | [], _ :: _ => isFalse (by simp)
  | _ :: _, [] => isFalse (by simp)
  | a :: as, b :: bs =>
    match decEq a b, decEqAll as bs with
    | isTrue h, isTrue hs => isTrue (by simp [h, hs])
    | isFalse h, _ => isFalse (by simp [h])
    | _, isFalse hs => isFalse (by simp [hs])

end

instance : DecidableEq Node := decEq

def level : Node → Level
  | terminal _ => 0
  | tree _ l _ => l

def rule? : Node → Option RuleName
  | terminal _ => none
  | tree r _ _ => some r

def token? : Node → Option String
  | terminal t => some t
  | tree .. => none

def tree? : Node → Option Tree
  | terminal _ => none
  | tree r l cs => some ⟨r, l, cs⟩

mutual

/-- The tokens under a node, in input order. -/
def leaves : Node → List String
  | terminal t => [t]
  | tree _ _ cs => leavesAll cs

def leavesAll : List Node → List String
  | [] => []
  | c :: cs => leaves c ++ leavesAll cs

end

theorem leavesAll_eq_flatMap (cs : List Node) : leavesAll cs = cs.flatMap leaves := by
  induction cs with
  | nil => rfl
  | cons c cs ih => simp [leavesAll, ih]

@[simp] theorem leavesAll_append (as bs : List Node) :
    leavesAll (as ++ bs) = leavesAll as ++ leavesAll bs := by
  induction as with
  | nil => simp [leavesAll]
  | cons a as ih => simp [leavesAll, ih]

mutual

/-- Where the chain of only children that starts at a tree ends. -/
def chainEnd? : Node → Option Tree
  | terminal _ => none
  | tree r l cs => some ((chainEndBelow? cs).getD ⟨r, l, cs⟩)

/-- Where the chain ends that starts at an only child, if that child is a tree. -/
def chainEndBelow? : List Node → Option Tree
  | [] => none
  | c :: cs => if cs.isEmpty then chainEnd? c else none

end

end Node

namespace Tree

instance : DecidableEq Tree := fun ⟨r, l, cs⟩ ⟨r', l', cs'⟩ =>
  decidable_of_iff (r = r' ∧ l = l' ∧ cs = cs') (by simp)

def toNode (t : Tree) : Node := .tree t.rule t.level t.children

@[simp] theorem tree?_toNode (t : Tree) : t.toNode.tree? = some t := rfl

@[simp] theorem toNode_inj {t u : Tree} : t.toNode = u.toNode ↔ t = u :=
  ⟨fun h => Option.some.inj (congrArg Node.tree? h), congrArg toNode⟩

@[simp] theorem level_toNode (t : Tree) : t.toNode.level = t.level := rfl

def leaves (t : Tree) : List String := Node.leavesAll t.children

@[simp] theorem leaves_toNode (t : Tree) : t.toNode.leaves = t.leaves := by
  simp [toNode, leaves, Node.leaves]

def child? (t : Tree) (i : Nat) : Option Node := t.children[i]?

def childTree? (t : Tree) (i : Nat) : Option Tree := (t.child? i).bind Node.tree?

/-- Follows only children down to the first tree that branches, or to the last tree of the chain. -/
def chainEnd (t : Tree) : Tree := (Node.chainEndBelow? t.children).getD t

end Tree

end LeftCorner
