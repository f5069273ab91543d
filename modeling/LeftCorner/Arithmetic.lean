import LeftCorner.Grammar.Parse

/-!
# Arithmetic

Numbers, the four operations and parentheses. Multiplication and division bind at level 10, addition and
subtraction at level 20. The right operand of an operation has to bind more tightly than the operation
itself, so all four group to the left. Parentheses reduce to what they enclose.
-/

namespace LeftCorner.Arithmetic

/-- A token that begins with a decimal digit. -/
def number : Pattern := ⟨"\\d+", .cat (.look .textStart) (.repeated (.chars .digit) 1 none), rfl⟩

def operand : Phrase := .rule "expr"

/-- Two operands around an operator that binds at a level. -/
def operation (operator : String) (level : Level) : Alternative :=
  .plain level (operand.upTo level + operator + operand.tighterThan level)

/-- The rules, from the tightest on. A block is an expression with the end marker behind it. -/
def definitions : List Definition := [
  ⟨"item", .plain 0 (.term (.pattern number))⟩,
  ⟨"add", operation "+" 20⟩,
  ⟨"sub", operation "-" 20⟩,
  ⟨"mul", operation "*" 10⟩,
  ⟨"div", operation "/" 10⟩,
  ⟨"subexpr", ⟨0, "(" + operand.upTo 100 + ")", .middle⟩⟩,
  ⟨"expr", .plain 0 (.rule "subexpr" ||| .rule "item" ||| .rule "add" ||| .rule "sub" ||| .rule "mul"
    ||| .rule "div")⟩,
  ⟨"block", .plain 0 (operand + Pending.endMarker)⟩]

def grammar : Grammar := .ofDefinitions "arith" definitions

/-- One token for each character that is no white space: enough where all numbers have one digit. -/
def tokenize (input : String) : List String :=
  (input.toList.filter fun c => !Unicode.isWhiteSpace c).map String.singleton

end LeftCorner.Arithmetic
