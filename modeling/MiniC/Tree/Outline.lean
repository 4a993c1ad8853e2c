import MiniC.Tree.Node

/-!
# The outline of a tree

An outline shows a tree with one node a line, in preorder, indented by two blanks a level:

```text
Program
  FunctionDeclaration(main)
    Statement(return)
      IntegerLiteral(2)
```

A node with an empty value shows its kind alone.
-/

namespace MiniC

namespace Node

def label (node : Node) : String :=
  if node.value = "" then node.kind.name else node.kind.name ++ "(" ++ node.value ++ ")"

/-- The line of a node at a level, without the newline. -/
def outlineLine (level : Nat) (node : Node) : String :=
  String.ofList (List.replicate (2 * level) ' ') ++ node.label

def outlineLines (node : Node) : List String :=
  (node.preorder 0).map fun (level, part) => part.outlineLine level

end Node

/-- The outline of a program; every line ends in a newline. -/
def Program.outline (program : Program) : String :=
  String.join ((Node.program program).outlineLines.map (· ++ "\n"))

/-! Places do not show in an outline. -/

/-- The lines of an expression are those of the expression without its places, at whatever level it
stands. -/
theorem Expr.outlineLines_unplaced (level : Nat) (e : Expr) :
    (e.unplaced.preorder level).map (fun (level, part) => part.outlineLine level) =
      (e.preorder level).map fun (level, part) => part.outlineLine level := by
  induction e generalizing level with
  | literal => rfl
  | unary _ _ _ ih =>
    simp only [unplaced, preorder, List.map_cons, ih]
    rfl
  | binary _ _ _ _ ihl ihr =>
    simp only [unplaced, preorder, List.map_cons, List.map_append, ihl, ihr]
    rfl

/-- So programs that are equal up to places have the same outline. -/
@[simp] theorem Program.outline_unplaced (program : Program) :
    program.unplaced.outline = program.outline := by
  have hreturned := Expr.outlineLines_unplaced 3 program.returned
  have hlines : (Node.program program.unplaced).outlineLines =
      (Node.program program).outlineLines := by
    show _ :: _ :: _ :: List.map _ (program.returned.unplaced.preorder 3) = _ :: _ :: _ :: _
    rw [hreturned]
    rfl
  rw [outline, outline, hlines]

end MiniC
