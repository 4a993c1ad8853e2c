import MiniC.Tree.Program

/-!
# The uniform view of a tree

A consumer that only cares for the shape of a tree (a printer, a walker, a count) sees every
part of it as a `Node`: a kind, a value, and children. How many children a node has is fixed by
its kind.

* **`Node.preorder`** lists a node and everything below it with levels, a node before its
  children and the children from left to right; **`preorder_eq`** is its recursion.
* **`Node.at?`** follows a path of child indices, **`Node.trail`** also shows what is met on the
  way.
* **`children_length`** says that the arity of the kind is kept.
-/

namespace MiniC

inductive Node.Kind where
  | program
  | function
  | statement
  | unary
  | binary
  | literal
  deriving DecidableEq, Repr

def Node.Kind.name : Node.Kind → String
  | .program => "Program"
  | .function => "FunctionDeclaration"
  | .statement => "Statement"
  | .unary => "UnaryOp"
  | .binary => "BinaryOp"
  | .literal => "IntegerLiteral"

/-- No two kinds have the same name. -/
theorem Node.Kind.name_inj {k l : Node.Kind} (h : k.name = l.name) : k = l := by
  revert h
  cases k <;> cases l <;> decide

def Node.Kind.arity : Node.Kind → Nat
  | .literal => 0
  | .binary => 2
  | .program | .function | .statement | .unary => 1

inductive Node where
  | program (program : Program)
  | function (function : FunctionDefinition)
  | statement (statement : Statement)
  | expr (expr : Expr)
  deriving DecidableEq, Repr

namespace Node

/-! ## Kind, value, children -/

def kind : Node → Kind
  | program _ => .program
  | function _ => .function
  | statement _ => .statement
  | expr (.literal ..) => .literal
  | expr (.unary ..) => .unary
  | expr (.binary ..) => .binary

/-- A function's name, an operator's sign, a literal's text; a program has no value. -/
def value : Node → String
  | program _ => ""
  | function f => f.name
  | statement _ => "return"
  | expr (.literal text _) => text
  | expr (.unary op ..) => op.sign
  | expr (.binary op ..) => op.sign

def children : Node → List Node
  | program p => [function p.function]
  | function f => [statement f.body]
  | statement s => [expr s.returned]
  | expr (.literal ..) => []
  | expr (.unary _ operand _) => [expr operand]
  | expr (.binary _ left right _) => [expr left, expr right]

/-- The place of a node. The program as a whole has none. -/
def location? : Node → Option Location
  | program _ => none
  | function f => some f.location
  | statement s => some s.location
  | expr e => some e.location

/-- **A node has as many children as its kind says.** -/
theorem children_length (node : Node) : node.children.length = node.kind.arity := by
  fun_cases children node <;> rfl

/-! ## Everything below a node -/

end Node

/-- An expression, as a node at a level, and everything below it. -/
def Expr.preorder (level : Nat) (e : Expr) : List (Nat × Node) :=
  (level, .expr e) ::
    match e with
    | .literal .. => []
    | .unary _ operand _ => operand.preorder (level + 1)
    | .binary _ left right _ => left.preorder (level + 1) ++ right.preorder (level + 1)

namespace Node

/-- A node at a level and everything below it, each with its level: a node comes before its
children, and what is below a child before the next child. -/
def preorder (level : Nat) : Node → List (Nat × Node)
  | expr e => e.preorder level
  | statement s => (level, statement s) :: s.returned.preorder (level + 1)
  | function f =>
    (level, function f) :: (level + 1, statement f.body) ::
      f.body.returned.preorder (level + 2)
  | program p =>
    (level, program p) :: (level + 1, function p.function) ::
      (level + 2, statement p.function.body) :: p.returned.preorder (level + 3)

/-- **One step of the preorder**: the node itself, and then everything below its children, from left
to right and one level deeper. The definition goes along the four sorts of nodes; this is the form
for an induction over children. -/
theorem preorder_eq (level : Nat) (node : Node) :
    node.preorder level = (level, node) :: node.children.flatMap (preorder (level + 1)) := by
  match node with
  | program _ => simp [preorder, children, Program.returned]
  | function _ => simp [preorder, children]
  | statement _ => simp [preorder, children]
  | expr (.literal ..) => rfl
  | expr (.unary ..) => simp [preorder, children, Expr.preorder]
  | expr (.binary ..) => simp [preorder, children, Expr.preorder]

def count (node : Node) : Nat := (node.preorder 0).length

/-- The greatest level below a node, which itself is at level zero. -/
def deepest (node : Node) : Nat := ((node.preorder 0).map Prod.fst).foldl max 0

/-! ## Paths -/

def child? (node : Node) (index : Nat) : Option Node := node.children[index]?

/-- The node that a path of child indices leads to, if every step meets a child. -/
def at? (node : Node) : List Nat → Option Node
  | [] => some node
  | index :: path =>
    match node.child? index with
    | none => none
    | some child => child.at? path

/-- The nodes met on a path: the start, then one entry for every index. An index without a child
ends the walk with an entry `none`. -/
def trail (node : Node) : List Nat → List (Option Node)
  | [] => [some node]
  | index :: path =>
    some node ::
      match node.child? index with
      | none => [none]
      | some child => child.trail path

/-- The end of the trail is where the path leads. -/
theorem getLast?_trail (node : Node) (path : List Nat) :
    (node.trail path).getLast? = some (node.at? path) := by
  induction path generalizing node with
  | nil => rfl
  | cons index path ih =>
    rw [trail, at?]
    cases node.child? index with
    | none => rfl
    | some child =>
      have hne : child.trail path ≠ [] := by cases path <;> simp [trail]
      obtain ⟨first, more, hcons⟩ := List.exists_cons_of_ne_nil hne
      have hlast := ih child
      rw [hcons] at hlast
      simp [hcons, hlast]

end Node

end MiniC
