import MiniC.Text.Location

/-!
# Expressions

An expression is a literal, a unary operator before its operand, or a binary operator between
two operands. Parentheses leave no trace in the tree. Every node knows the place of the token it
came from: a literal that of its digits, an operator that of its sign.

* **`Expr.text`** writes a tree with parentheses around every binary operator, so the written
  form shows the grouping.
* **`Expr.unplaced`** forgets the places: two trees are the same up to places when these agree.
-/

namespace MiniC

inductive UnaryOp where
  | negate
  | not
  | complement
  deriving DecidableEq, Repr

inductive BinaryOp where
  | add
  | subtract
  | multiply
  | divide
  deriving DecidableEq, Repr

def UnaryOp.sign : UnaryOp → String
  | .negate => "-"
  | .not => "!"
  | .complement => "~"

def BinaryOp.sign : BinaryOp → String
  | .add => "+"
  | .subtract => "-"
  | .multiply => "*"
  | .divide => "/"

/-! No two operators of a sort are written alike. -/

theorem UnaryOp.sign_inj {op op' : UnaryOp} (h : op.sign = op'.sign) : op = op' := by
  revert h
  cases op <;> cases op' <;> decide

theorem BinaryOp.sign_inj {op op' : BinaryOp} (h : op.sign = op'.sign) : op = op' := by
  revert h
  cases op <;> cases op' <;> decide

/-- An expression tree. A literal keeps the text it was written with. -/
inductive Expr where
  | literal (text : String) (location : Location)
  | unary (op : UnaryOp) (operand : Expr) (location : Location)
  | binary (op : BinaryOp) (left right : Expr) (location : Location)
  deriving DecidableEq, Repr

namespace Expr

def location : Expr → Location
  | literal _ location | unary _ _ location | binary _ _ _ location => location

/-- The tree in infix form, with parentheses around every binary operator. -/
def text : Expr → String
  | literal text _ => text
  | unary op operand _ => op.sign ++ operand.text
  | binary op left right _ => "(" ++ left.text ++ " " ++ op.sign ++ " " ++ right.text ++ ")"

/-- The characters of a binary operator in the order in which they are read again: an opening
parenthesis, the left operand, the sign between two blanks, the right operand, and the closing
parenthesis. -/
theorem toList_text_binary (op : BinaryOp) (left right : Expr) (location : Location) :
    (binary op left right location).text.toList = '(' :: (left.text.toList ++
      ' ' :: (op.sign.toList ++ ' ' :: (right.text.toList ++ [')']))) := by
  simp [text]

/-- The tree with every place put back to the start of the text. -/
def unplaced : Expr → Expr
  | literal text _ => literal text {}
  | unary op operand _ => unary op operand.unplaced {}
  | binary op left right _ => binary op left.unplaced right.unplaced {}

end Expr

end MiniC
