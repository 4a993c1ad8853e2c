import MiniC.Token.Basic
import MiniC.Tree.Expr

/-!
# Dialects and their operators

The rules for expressions leave three things open, and a dialect fills them in: which tokens
continue a sum, which continue a product, and how a product groups. `Operators` holds these
three; the rules take it as an argument, so that two tables can be compared on the same rules.

In the standard dialect sums and products both group to the left. In the legacy dialect the
right operand of a product is a whole product, so products group to the right, and a sum goes
on at a plus or at a star, never at a minus. (No star is ever left to the sum: the product
before it takes it first.)
-/

namespace MiniC

/-- Which operator tokens mean what, and how they group. -/
inductive Dialect where
  | standard
  | legacy
  deriving DecidableEq, Repr

/-- What the right operand of a product is. -/
inductive Grouping where
  /-- One factor: a chain of products groups to the left. -/
  | left
  /-- A whole product: a chain of products groups to the right. -/
  | right
  deriving DecidableEq, Repr

/-- The part of the expression rules that a dialect decides. -/
structure Operators where
  /-- The operator between the terms of a sum that a token stands for. -/
  additive : Token.Kind → Option BinaryOp
  /-- The operator between the factors of a product that a token stands for. -/
  multiplicative : Token.Kind → Option BinaryOp
  grouping : Grouping

/-- The operator before an operand that a token stands for, in every dialect. -/
def Token.Kind.unaryOp? : Token.Kind → Option UnaryOp
  | .minus => some .negate
  | .bang => some .not
  | .tilde => some .complement
  | _ => none

namespace Dialect

def name : Dialect → String
  | standard => "Standard"
  | legacy => "Legacy"

def additive : Dialect → Token.Kind → Option BinaryOp
  | _, .plus => some .add
  | standard, .minus => some .subtract
  | legacy, .star => some .multiply
  | _, _ => none

/-- The tokens that continue a product, in every dialect. -/
def multiplicative : Token.Kind → Option BinaryOp
  | .star => some .multiply
  | .slash => some .divide
  | _ => none

def grouping : Dialect → Grouping
  | standard => .left
  | legacy => .right

def operators (dialect : Dialect) : Operators where
  additive := dialect.additive
  multiplicative := multiplicative
  grouping := dialect.grouping

end Dialect

end MiniC
