import LeftCorner.Node.Basic

/-!
# Node constructors

What a reduction leaves behind is up to the alternative: it names a constructor, which gets the rule,
the alternative's level and the matched nodes.
-/

namespace LeftCorner

/-- Builds the node that a match reduces to. -/
abbrev Constructor := RuleName → Level → List Node → Node

namespace Constructor

def tree : Constructor := Node.tree

/-- The middle one of three nodes, so that the brackets around a group leave no trace. Any other
match becomes a tree. -/
def middle : Constructor
  | _, _, [_, n, _] => n
  | rule, level, children => .tree rule level children

end Constructor

end LeftCorner
