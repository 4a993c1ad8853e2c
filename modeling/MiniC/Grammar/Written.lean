import MiniC.Grammar.Derivation
import MiniC.Tree.Inorder

/-!
# Phrases as they are written

A derivation says how the operators of a phrase group. On paper they do not group: a term is a chain
of factors with operators between, whatever the dialect makes of it. A `Written` phrase is that
picture. It keeps every token, parentheses too, and only becomes a tree once somebody says which way
its chains of factors fold.

* **`Chain.fold`** folds one chain to the left or to the right.
* **`Written.tree`** folds all chains of factors of a phrase the same way. Sums fold to the left in
  either case, as they do in both dialects.
* **`Written.frames`** is the nesting that reading the phrase takes in a dialect.
-/

namespace MiniC.Grammar

/-! ## Chains -/

/-- A left operand and what follows it: operators, with their places, and right operands. -/
structure Chain where
  first : Expr
  more : List (BinaryOp × Location × Expr) := []

namespace Chain

/-- All operands so far are the left operand of the next operator. -/
def foldLeft (chain : Chain) : Expr :=
  chain.more.foldl (fun left (op, location, right) => .binary op left right location) chain.first

/-- All operands to come are the right operand of an operator. -/
def foldRight (first : Expr) : List (BinaryOp × Location × Expr) → Expr
  | [] => first
  | (op, location, next) :: more => .binary op first (foldRight next more) location

def fold : Grouping → Chain → Expr
  | .left, chain => chain.foldLeft
  | .right, chain => foldRight chain.first chain.more

end Chain

/-! ## Phrases -/

/-- A phrase of the standard dialect, as it is written. A term is one factor, or a factor, an
operator and a shorter term: that is the order in which the factors stand, and not how they
group. -/
inductive Written : Phrase → Type where
  | literal (token : Token) (hkind : token.kind = .intLiteral) : Written .factor
  | unary (sign : Token) (op : UnaryOp) (hsign : sign.kind = op.kind)
      (operand : Written .factor) : Written .factor
  | parens (opening closing : Token) (hopen : opening.kind = .openParen)
      (hclose : closing.kind = .closeParen) (inner : Written .expression) : Written .factor
  | factor (f : Written .factor) : Written .term
  | product (left : Written .factor) (sign : Token) (op : BinaryOp) (hop : IsProductOp op)
      (hsign : sign.kind = op.kind) (right : Written .term) : Written .term
  | term (t : Written .term) : Written .expression
  | sum (left : Written .expression) (sign : Token) (op : BinaryOp)
      (hop : IsSumOp .standard op) (hsign : sign.kind = op.kind) (right : Written .term) :
      Written .expression

namespace Written

def tokens : {phrase : Phrase} → Written phrase → List Token
  | _, literal token _ => [token]
  | _, unary sign _ _ operand => sign :: operand.tokens
  | _, parens opening closing _ _ inner => opening :: inner.tokens ++ [closing]
  | _, factor f => f.tokens
  | _, product left sign _ _ _ right => left.tokens ++ sign :: right.tokens
  | _, term t => t.tokens
  | _, sum left sign _ _ _ right => left.tokens ++ sign :: right.tokens

/-- The chain of factors that a phrase is, every factor folded already. A factor and an expression
are chains without operators. -/
def chain (grouping : Grouping) : {phrase : Phrase} → Written phrase → Chain
  | _, literal token _ => { first := .literal token.text token.location }
  | _, unary sign op _ operand =>
    { first := .unary op ((operand.chain grouping).fold grouping) sign.location }
  | _, parens _ _ _ _ inner => { first := (inner.chain grouping).fold grouping }
  | _, factor f => { first := (f.chain grouping).fold grouping }
  | _, product left sign op _ _ right =>
    { first := (left.chain grouping).fold grouping
      more := (op, sign.location, (right.chain grouping).first) :: (right.chain grouping).more }
  | _, term t => { first := (t.chain grouping).fold grouping }
  | _, sum left sign op _ _ right =>
    { first := .binary op ((left.chain grouping).fold grouping)
        ((right.chain grouping).fold grouping) sign.location }

/-- The tree of a phrase, if chains of factors fold that way. -/
def tree {phrase : Phrase} (grouping : Grouping) (written : Written phrase) : Expr :=
  (written.chain grouping).fold grouping

section Tree

variable (grouping : Grouping)

@[simp] theorem tree_literal (token : Token) (hkind : token.kind = .intLiteral) :
    (literal token hkind).tree grouping = .literal token.text token.location := by
  cases grouping <;> rfl

@[simp] theorem tree_unary (sign : Token) (op : UnaryOp) (hsign : sign.kind = op.kind)
    (operand : Written .factor) :
    (unary sign op hsign operand).tree grouping =
      .unary op (operand.tree grouping) sign.location := by
  cases grouping <;> rfl

/-- Parentheses leave no trace in the tree. -/
@[simp] theorem tree_parens (opening closing : Token) (hopen : opening.kind = .openParen)
    (hclose : closing.kind = .closeParen) (inner : Written .expression) :
    (parens opening closing hopen hclose inner).tree grouping = inner.tree grouping := by
  cases grouping <;> rfl

@[simp] theorem tree_factor (f : Written .factor) :
    (factor f).tree grouping = f.tree grouping := by
  cases grouping <;> rfl

@[simp] theorem tree_term (t : Written .term) : (term t).tree grouping = t.tree grouping := by
  cases grouping <;> rfl

/-- Sums fold to the left in either case, so both parts of a sum stand in its tree as they are. -/
@[simp] theorem tree_sum (left : Written .expression) (sign : Token) (op : BinaryOp)
    (hop : IsSumOp .standard op) (hsign : sign.kind = op.kind) (right : Written .term) :
    (sum left sign op hop hsign right).tree grouping =
      .binary op (left.tree grouping) (right.tree grouping) sign.location := by
  cases grouping <;> rfl

end Tree

/-- To the right a term folds factor by factor. -/
@[simp] theorem tree_product_right (left : Written .factor) (sign : Token) (op : BinaryOp)
    (hop : IsProductOp op) (hsign : sign.kind = op.kind) (right : Written .term) :
    (product left sign op hop hsign right).tree .right =
      .binary op (left.tree .right) (right.tree .right) sign.location := rfl

/-- The number of operators in the chain that a term is. -/
def operators : {phrase : Phrase} → Written phrase → Nat
  | _, product _ _ _ _ _ right => right.operators + 1
  | _, _ => 0

/-- The greatest number of operators in one chain of factors, at any depth. -/
def longestChain : {phrase : Phrase} → Written phrase → Nat
  | _, literal _ _ => 0
  | _, unary _ _ _ operand => operand.longestChain
  | _, parens _ _ _ _ inner => inner.longestChain
  | _, factor f => f.longestChain
  | _, product left _ _ _ _ right =>
    max left.longestChain (max (right.operators + 1) right.longestChain)
  | _, term t => t.longestChain
  | _, sum left _ _ _ _ right => max left.longestChain right.longestChain

def inorder : {phrase : Phrase} → Written phrase → List (Expr.Mark × Location)
  | _, literal token _ => [(.literal token.text, token.location)]
  | _, unary sign op _ operand => (.unary op, sign.location) :: operand.inorder
  | _, parens _ _ _ _ inner => inner.inorder
  | _, factor f => f.inorder
  | _, product left sign op _ _ right => left.inorder ++ (.binary op, sign.location) :: right.inorder
  | _, term t => t.inorder
  | _, sum left sign op _ _ right => left.inorder ++ (.binary op, sign.location) :: right.inorder

/-- The greatest number of expressions, factors and right operand terms that lie one inside the
other. -/
def frames (dialect : Dialect) : {phrase : Phrase} → Written phrase → Nat
  | _, literal _ _ => 1
  | _, unary _ _ _ operand => 1 + operand.frames dialect
  | _, parens _ _ _ _ inner => 1 + inner.frames dialect
  | _, factor f => f.frames dialect
  | _, product left _ _ _ _ right =>
    match dialect with
    | .standard => max (left.frames dialect) (right.frames dialect)
    | .legacy => max (left.frames dialect) (1 + right.frames dialect)
  | _, term t => 1 + t.frames dialect
  | _, sum left _ _ _ _ right => max (left.frames dialect) (1 + right.frames dialect)

end Written

end MiniC.Grammar
