import MiniC.Tree.Expr

/-!
# The nodes of an expression in reading order

Between the tokens of a text and the nodes of a tree stands the in-order sequence: a unary operator
before its operand, a binary operator between its operands. It shows every node with its place, and
forgets how the nodes are grouped.
-/

namespace MiniC

/-- What a node of an expression says without its operands. -/
inductive Expr.Mark where
  | literal (text : String)
  | unary (op : UnaryOp)
  | binary (op : BinaryOp)
  deriving DecidableEq, Repr

namespace Expr

/-- The nodes from left to right, each with its place. -/
def inorder : Expr → List (Mark × Location)
  | literal text location => [(.literal text, location)]
  | unary op operand location => (.unary op, location) :: operand.inorder
  | binary op left right location => left.inorder ++ (.binary op, location) :: right.inorder

/-- The nodes from left to right, wherever they stand. -/
def marks (e : Expr) : List Mark := e.inorder.map Prod.fst

def Subtracts (e : Expr) : Prop := .binary .subtract ∈ e.marks

instance (e : Expr) : Decidable e.Subtracts :=
  inferInstanceAs (Decidable (_ ∈ e.marks))

@[simp] theorem marks_literal (text : String) (location : Location) :
    (literal text location).marks = [.literal text] := rfl

@[simp] theorem marks_unary (op : UnaryOp) (operand : Expr) (location : Location) :
    (unary op operand location).marks = .unary op :: operand.marks := rfl

@[simp] theorem marks_binary (op : BinaryOp) (left right : Expr) (location : Location) :
    (binary op left right location).marks = left.marks ++ .binary op :: right.marks :=
  List.map_append

/-- Without its places a tree has the same nodes in the same order. -/
@[simp] theorem marks_unplaced (e : Expr) : e.unplaced.marks = e.marks := by
  induction e with
  | literal => rfl
  | unary _ _ _ ih => simp only [unplaced, marks_unary, ih]
  | binary _ _ _ _ ihl ihr => simp only [unplaced, marks_binary, ihl, ihr]

end Expr

end MiniC
