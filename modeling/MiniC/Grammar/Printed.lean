import MiniC.Grammar.Written

/-!
# Expressions as they are printed

`Expr.text` puts parentheses around every binary operator, so what it prints is a factor: a literal,
a sign before a printed factor, or one operator between two printed factors, in parentheses. This
module writes that factor down with all its tokens, each at the place where its text is printed.

* **`Expr.written`** is the factor. Its tree is the printed one up to places (`unplaced_written`),
  whichever way chains fold, for no chain has two operators.
* **`Expr.frames`** is the nesting that reading it takes (`frames_written`).
* **`Expr.source`** prints a whole program around an expression.
-/

namespace MiniC

namespace Expr

/-- Every literal is a number: digits, and at least one. -/
def Numeric : Expr → Prop
  | literal text _ => text ≠ "" ∧ ∀ c ∈ text.toList, c.isDigit = true
  | unary _ operand _ => operand.Numeric
  | binary _ left right _ => left.Numeric ∧ right.Numeric

/-- The levels of nesting that the printed form takes. The parentheses of a binary operator are two,
and in the legacy dialect the right operand of a product is one more. -/
def frames (dialect : Dialect) : Expr → Nat
  | literal _ _ => 1
  | unary _ operand _ => 1 + operand.frames dialect
  | binary op left right _ =>
    match dialect, op with
    | .legacy, .multiply | .legacy, .divide =>
      2 + max (left.frames dialect) (1 + right.frames dialect)
    | _, _ => 2 + max (left.frames dialect) (right.frames dialect)

def source (name : String) (e : Expr) : String :=
  "int " ++ name ++ "() \x7b return " ++ e.text ++ "; \x7d"

end Expr

open Grammar (Written)

/-! ## One operator between two factors -/

namespace Grammar.Written

def binary (left : Written .factor) (sign : Token) (right : Written .factor) :
    (op : BinaryOp) → sign.kind = op.kind → Written .expression
  | .add, hsign => .sum (.term (.factor left)) sign .add (.inl rfl) hsign (.factor right)
  | .subtract, hsign => .sum (.term (.factor left)) sign .subtract (.inr rfl) hsign (.factor right)
  | .multiply, hsign => .term (.product left sign .multiply (.inl rfl) hsign (.factor right))
  | .divide, hsign => .term (.product left sign .divide (.inr rfl) hsign (.factor right))

variable (left right : Written .factor) (sign : Token) (op : BinaryOp) (hsign : sign.kind = op.kind)

@[simp] theorem tokens_binary :
    (binary left sign right op hsign).tokens = left.tokens ++ sign :: right.tokens := by
  cases op <;> rfl

/-- With two factors as its operands, an operator makes the same tree whichever way chains fold. -/
@[simp] theorem tree_binary (grouping : Grouping) :
    (binary left sign right op hsign).tree grouping =
      .binary op (left.tree grouping) (right.tree grouping) sign.location := by
  cases op <;> cases grouping <;> rfl

end Grammar.Written

/-! ## The printed factor -/

namespace Expr

/-- The factor that is printed, if its text starts at a place. -/
def written (start : Location) : Expr → Written .factor
  | literal text _ => .literal ⟨.intLiteral, text, start⟩ rfl
  | unary op operand _ =>
    .unary ⟨op.kind, op.sign, start⟩ op rfl (operand.written (start.after op.sign.toList))
  | binary op left right _ =>
    let leftPlace := start.after ['(']
    let signPlace := (leftPlace.after left.text.toList).after [' ']
    let rightPlace := (signPlace.after op.sign.toList).after [' ']
    let closePlace := rightPlace.after right.text.toList
    .parens ⟨.openParen, "(", start⟩ ⟨.closeParen, ")", closePlace⟩ rfl rfl
      (.binary (left.written leftPlace) ⟨op.kind, op.sign, signPlace⟩ (right.written rightPlace)
        op rfl)

/-- The printed factor is read as the tree it was printed from, up to places. -/
theorem unplaced_written (grouping : Grouping) (start : Location) (e : Expr) :
    ((e.written start).tree grouping).unplaced = e.unplaced := by
  induction e generalizing start with
  | literal => simp [written, unplaced]
  | unary op operand _ ih => simp [written, unplaced, ih]
  | binary op left right _ ihl ihr => simp [written, unplaced, ihl, ihr]

/-- The levels that `Expr.frames` counts on the tree are those that reading the printed factor
takes, in both dialects. -/
theorem frames_written (dialect : Dialect) (start : Location) (e : Expr) :
    (e.written start).frames dialect = e.frames dialect := by
  induction e generalizing start with
  | literal => rfl
  | unary op operand _ ih => simp only [written, Written.frames, frames, ih]
  | binary op left right _ ihl ihr =>
    cases dialect <;> cases op <;>
      · simp only [written, Written.binary, Written.frames, frames, ihl, ihr]
        omega

/-- Which operators it has does not depend on the places either. -/
theorem subtracts_written (grouping : Grouping) (start : Location) (e : Expr) :
    ((e.written start).tree grouping).Subtracts ↔ e.Subtracts := by
  rw [Subtracts, Subtracts, ← marks_unplaced, unplaced_written, marks_unplaced]

end Expr

end MiniC
