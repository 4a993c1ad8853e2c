import MiniC.Parse.Dialect
import MiniC.Parse.Rule

/-!
# The rules for expressions

```text
expression ::= term { additive-operator term }
term       ::= factor { multiplicative-operator right-operand }
factor     ::= "(" expression ")" | unary-operator factor | integer-literal
```

The right operand of a product is a factor where products group to the left, and a term where
they group to the right. Both chains fold to the left as they are read, so grouping to the
right comes from the operand alone. An expression, a factor and a term that is a right operand
each take one level of nesting; the chains take none.

## How the recursion ends

An expression holds terms, a term holds factors, and a factor holds expressions again, so the
three rules recur through one another, each time behind a consumed token. They are therefore
written over a bound on the tokens still to come: `factorWithin` recurs on it, and `termWithin`
does so for terms that are right operands. A factor within bound zero is a factor at the end of
the input. `factor` and `term` take the bound from the cursor, so no answer ever depends on it;
`MiniC.Parse.Unfolding` shows that the rules satisfy the equations one would write without any
bound.
-/

namespace MiniC

namespace Rule

/-! ## Chains of operators -/

/-- Goes on with a left operand as long as operators follow it, at most `bound` times, folding to
the left. -/
def chainWithin (table : Token.Kind → Option BinaryOp) (operand : Rule Expr) :
    Nat → Expr → Rule Expr
  | 0, left => return left
  | bound + 1, left => do
    match ← operator? table with
    | none => return left
    | some (op, location) =>
      let right ← operand
      chainWithin table operand bound (.binary op left right location)

/-- Goes on with a left operand as long as operators follow it, folding to the left. There are no
more operators than tokens. -/
def chain (table : Token.Kind → Option BinaryOp) (operand : Rule Expr) (left : Expr) :
    Rule Expr := do
  chainWithin table operand (← cursor).remaining left

/-! ## Factors, terms and expressions, within a bound -/

/-- The right operand of a product: a factor, or a nested term. -/
def productOperand (ops : Operators) (cap : Option Nat) (factor term : Rule Expr) :
    Rule Expr :=
  match ops.grouping with
  | .left => factor
  | .right => nested cap term

/-- A product of factors, with at most `bound` tokens to come. -/
def termWithin (ops : Operators) (cap : Option Nat) (factor : Rule Expr) : Nat → Rule Expr
  | 0 => factor
  | bound + 1 => do
    let left ← factor
    chain ops.multiplicative
      (productOperand ops cap factor (termWithin ops cap factor bound)) left

def sumOf (ops : Operators) (cap : Option Nat) (term : Rule Expr) : Rule Expr :=
  nested cap do
    let left ← term
    chain ops.additive term left

/-- A factor, given the rules for what may stand inside of it. -/
def factorOf (cap : Option Nat) (expression factor : Rule Expr) : Rule Expr :=
  nested cap do
    match ← peek? with
    | none => fail (.unexpectedEnd .expression)
    | some token =>
      match token.kind with
      | .openParen =>
        advance
        let inner ← expression
        let _ ← expect .closeParen .closeParen
        return inner
      | .intLiteral =>
        advance
        return .literal token.text token.location
      | kind =>
        match kind.unaryOp? with
        | some op =>
          advance
          let operand ← factor
          return .unary op operand token.location
        | none => fail (.unexpectedToken .expression token)

/-- A factor, with at most `bound` tokens to come. -/
def factorWithin (ops : Operators) (cap : Option Nat) : Nat → Rule Expr
  | 0 => nested cap (fail (.unexpectedEnd .expression))
  | bound + 1 =>
    -- The smaller bounds are only looked at once the rule runs.
    ⟨fun s =>
      (factorOf cap (sumOf ops cap (termWithin ops cap (factorWithin ops cap bound) bound))
        (factorWithin ops cap bound)).run s⟩

/-! ## The rules -/

def factor (ops : Operators) (cap : Option Nat) : Rule Expr := do
  factorWithin ops cap (← cursor).remaining

def term (ops : Operators) (cap : Option Nat) : Rule Expr := do
  termWithin ops cap (factor ops cap) (← cursor).remaining

def expression (ops : Operators) (cap : Option Nat) : Rule Expr :=
  sumOf ops cap (term ops cap)

/-! The bound is the number of tokens to come. -/

/-- A chain may take an operator for every token to come when it starts. -/
theorem run_chain (table : Token.Kind → Option BinaryOp) (operand : Rule Expr) (left : Expr)
    (s : State) :
    (chain table operand left).run s =
      (chainWithin table operand s.cursor.remaining left).run s := rfl

/-- A factor reads its bound off the cursor that it starts from. -/
theorem run_factor (ops : Operators) (cap : Option Nat) (s : State) :
    (factor ops cap).run s = (factorWithin ops cap s.cursor.remaining).run s := rfl

theorem run_term (ops : Operators) (cap : Option Nat) (s : State) :
    (term ops cap).run s =
      (termWithin ops cap (factor ops cap) s.cursor.remaining).run s := rfl

end Rule

end MiniC
