import MiniC.Parse.Error
import MiniC.Tree.Program

/-!
# Results over token indices

What a token list is read as, a tree or an error, is put together from its tokens: a literal and the
name of the function show the text of a token, every node and every error the place of one, and an
unexpected token is shown as it is. A *shape* has the index of that token instead. So a shape tells
which token is used where, and `fill` makes the result of it that belongs to one token list.

`unplaced` forgets the places of an error as `Program.unplaced` does those of a tree.
**`unplaced_fill`** says that filled with the same kinds and texts, a shape gives the same up to
places.
-/

namespace MiniC

variable {n : Nat}

/-! ## Trees -/

/-- An expression tree over the tokens of a list. -/
inductive Expr.Shape (n : Nat) where
  | literal (token : Fin n)
  | unary (op : UnaryOp) (operand : Expr.Shape n) (token : Fin n)
  | binary (op : BinaryOp) (left right : Expr.Shape n) (token : Fin n)

/-- The tree of a shape in one list. -/
def Expr.Shape.fill (tokens : Fin n → Token) : Expr.Shape n → Expr
  | literal token => .literal (tokens token).text (tokens token).location
  | unary op operand token => .unary op (operand.fill tokens) (tokens token).location
  | binary op left right token =>
    .binary op (left.fill tokens) (right.fill tokens) (tokens token).location

structure Program.Shape (n : Nat) where
  returnType : Fin n
  name : Fin n
  keyword : Fin n
  returned : Expr.Shape n

def Program.Shape.fill (tokens : Fin n → Token) (shape : Program.Shape n) : Program :=
  ⟨⟨(tokens shape.name).text, ⟨shape.returned.fill tokens, (tokens shape.keyword).location⟩,
    (tokens shape.returnType).location⟩⟩

/-! ## Errors and results -/

inductive ParseError.Shape (n : Nat) where
  | unexpectedEnd (expected : Expectation)
  | unexpectedToken (expected : Expectation) (found : Fin n)
  | tooDeep (limit : Nat) (token : Fin n)

def ParseError.Shape.fill (tokens : Fin n → Token) : ParseError.Shape n → ParseError
  | unexpectedEnd expected => .unexpectedEnd expected
  | unexpectedToken expected found => .unexpectedToken expected (tokens found)
  | tooDeep limit token => .tooDeep limit (tokens token).location

inductive Parser.Shape (n : Nat) where
  | ok (program : Program.Shape n)
  | error (error : ParseError.Shape n)

def Parser.Shape.fill (tokens : Fin n → Token) : Parser.Shape n → Except ParseError Program
  | ok program => .ok (program.fill tokens)
  | error reason => .error (reason.fill tokens)

/-! ## Without the places -/

def Token.unplaced (token : Token) : Token := { token with location := {} }

def ParseError.unplaced : ParseError → ParseError
  | unexpectedEnd expected => .unexpectedEnd expected
  | unexpectedToken expected found => .unexpectedToken expected found.unplaced
  | tooDeep limit _ => .tooDeep limit {}

section Fill

variable {tokens tokens' : Fin n → Token} (h : ∀ i, (tokens i).unplaced = (tokens' i).unplaced)

include h

/-- Tokens that are equal up to places have the same text. -/
theorem Token.text_eq_of_unplaced (i : Fin n) : (tokens i).text = (tokens' i).text := by
  show (tokens i).unplaced.text = (tokens' i).unplaced.text
  rw [h i]

/-- With tokens that are equal up to places a shape is filled to trees that are. -/
theorem Expr.Shape.unplaced_fill (shape : Expr.Shape n) :
    (shape.fill tokens).unplaced = (shape.fill tokens').unplaced := by
  induction shape with
  | literal token =>
    show Expr.literal (tokens token).text {} = Expr.literal (tokens' token).text {}
    rw [Token.text_eq_of_unplaced h]
  | unary op operand token ih => simp only [fill, Expr.unplaced, ih]
  | binary op left right token ihl ihr => simp only [fill, Expr.unplaced, ihl, ihr]

/-- The same for a program. Its name is the text of one of the tokens. -/
theorem Program.Shape.unplaced_fill (shape : Program.Shape n) :
    (shape.fill tokens).unplaced = (shape.fill tokens').unplaced := by
  have hname := Token.text_eq_of_unplaced h shape.name
  have hreturned := Expr.Shape.unplaced_fill h shape.returned
  simp only [fill, Program.unplaced, Program.returned, hname, hreturned]

/-- The same for an error, which may show a whole token. -/
theorem ParseError.Shape.unplaced_fill (shape : ParseError.Shape n) :
    (shape.fill tokens).unplaced = (shape.fill tokens').unplaced := by
  cases shape with
  | unexpectedEnd expected => rfl
  | unexpectedToken expected found => simp only [fill, unplaced, h]
  | tooDeep limit token => rfl

end Fill

end MiniC
