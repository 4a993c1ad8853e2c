import MiniC.Parse.Dialect
import MiniC.Tree.Program

/-!
# The grammar, as derivations

This module says what the language is without saying how it is read. A derivation takes a list
of tokens to a tree:

```text
program    ::= "int" identifier "(" ")" "{" "return" expression ";" "}"
expression ::= term | expression "+" term | expression "-" term
term       ::= factor | term "*" factor | term "/" factor        (standard)
term       ::= factor | factor "*" term | factor "/" term        (legacy)
factor     ::= "(" expression ")" | "-" factor | "!" factor | "~" factor | integer-literal
```

The rules are left-recursive where operators group to the left, and right-recursive where they
group to the right. The legacy dialect has no binary minus at all. Parentheses leave no node;
every other token of an expression leaves its place in the tree.

A derivation also has a number of *frames*: the greatest number of expressions, factors and
right operand terms that lie one inside the other. It is the nesting depth that reading the
tokens takes.

* **`Derives`** is the relation for expressions, terms and factors.
* **`DerivesProgram`** puts the header and the closing tokens around an expression.
-/

namespace MiniC

/-- The kind of token that an operator is written with. -/
def UnaryOp.kind : UnaryOp → Token.Kind
  | .negate => .minus
  | .not => .bang
  | .complement => .tilde

def BinaryOp.kind : BinaryOp → Token.Kind
  | .add => .plus
  | .subtract => .minus
  | .multiply => .star
  | .divide => .slash

namespace Grammar

inductive Phrase where
  | expression
  | term
  | factor
  deriving DecidableEq, Repr

def IsSumOp : Dialect → BinaryOp → Prop
  | .standard, op => op = .add ∨ op = .subtract
  | .legacy, op => op = .add

def IsProductOp (op : BinaryOp) : Prop := op = .multiply ∨ op = .divide

/-- `Derives dialect phrase tokens e frames`: the tokens are a phrase with the tree `e`, and
reading it takes that many frames. -/
inductive Derives (dialect : Dialect) : Phrase → List Token → Expr → Nat → Prop where
  | literal {token : Token} (hkind : token.kind = .intLiteral) :
      Derives dialect .factor [token] (.literal token.text token.location) 1
  | unary {sign : Token} {op : UnaryOp} {tokens : List Token} {e : Expr} {frames : Nat}
      (hsign : sign.kind = op.kind) (hoperand : Derives dialect .factor tokens e frames) :
      Derives dialect .factor (sign :: tokens) (.unary op e sign.location) (1 + frames)
  | parens {opening closing : Token} {tokens : List Token} {e : Expr} {frames : Nat}
      (hopen : opening.kind = .openParen) (hclose : closing.kind = .closeParen)
      (hinner : Derives dialect .expression tokens e frames) :
      Derives dialect .factor (opening :: tokens ++ [closing]) e (1 + frames)
  | factor {tokens : List Token} {e : Expr} {frames : Nat}
      (hfactor : Derives dialect .factor tokens e frames) :
      Derives dialect .term tokens e frames
  | productLeft {sign : Token} {op : BinaryOp} {ltokens rtokens : List Token} {l r : Expr}
      {lframes rframes : Nat} (hdialect : dialect = .standard) (hop : IsProductOp op)
      (hsign : sign.kind = op.kind) (hleft : Derives dialect .term ltokens l lframes)
      (hright : Derives dialect .factor rtokens r rframes) :
      Derives dialect .term (ltokens ++ sign :: rtokens) (.binary op l r sign.location)
        (max lframes rframes)
  | productRight {sign : Token} {op : BinaryOp} {ltokens rtokens : List Token} {l r : Expr}
      {lframes rframes : Nat} (hdialect : dialect = .legacy) (hop : IsProductOp op)
      (hsign : sign.kind = op.kind) (hleft : Derives dialect .factor ltokens l lframes)
      (hright : Derives dialect .term rtokens r rframes) :
      Derives dialect .term (ltokens ++ sign :: rtokens) (.binary op l r sign.location)
        (max lframes (1 + rframes))
  | term {tokens : List Token} {e : Expr} {frames : Nat}
      (hterm : Derives dialect .term tokens e frames) :
      Derives dialect .expression tokens e (1 + frames)
  | sum {sign : Token} {op : BinaryOp} {ltokens rtokens : List Token} {l r : Expr}
      {lframes rframes : Nat} (hop : IsSumOp dialect op) (hsign : sign.kind = op.kind)
      (hleft : Derives dialect .expression ltokens l lframes)
      (hright : Derives dialect .term rtokens r rframes) :
      Derives dialect .expression (ltokens ++ sign :: rtokens) (.binary op l r sign.location)
        (max lframes (1 + rframes))

/-- `DerivesProgram dialect tokens program frames`: the tokens are a whole program, and reading
its expression takes that many frames. -/
inductive DerivesProgram (dialect : Dialect) : List Token → Program → Nat → Prop where
  | program {returnType name openParen closeParen openBrace keyword semicolon closeBrace : Token}
      {tokens : List Token} {e : Expr} {frames : Nat}
      (hreturnType : returnType.kind = .intKeyword) (hname : name.kind = .identifier)
      (hopenParen : openParen.kind = .openParen) (hcloseParen : closeParen.kind = .closeParen)
      (hopenBrace : openBrace.kind = .openBrace) (hkeyword : keyword.kind = .returnKeyword)
      (hreturned : Derives dialect .expression tokens e frames)
      (hsemicolon : semicolon.kind = .semicolon) (hcloseBrace : closeBrace.kind = .closeBrace) :
      DerivesProgram dialect
        ([returnType, name, openParen, closeParen, openBrace, keyword] ++ tokens ++
          [semicolon, closeBrace])
        ⟨⟨name.text, ⟨e, keyword.location⟩, returnType.location⟩⟩ frames

/-! ## Every phrase has tokens and frames -/

variable {dialect : Dialect} {phrase : Phrase} {tokens : List Token} {e : Expr} {frames : Nat}

/-- No phrase is empty. -/
theorem Derives.tokens_ne_nil (h : Derives dialect phrase tokens e frames) : tokens ≠ [] := by
  induction h with
  | literal | unary | parens => exact List.cons_ne_nil _ _
  | factor _ ih | term _ ih => exact ih
  | productLeft | productRight | sum => simp

/-- Every phrase takes a frame: there is a factor in it. -/
theorem Derives.frames_pos (h : Derives dialect phrase tokens e frames) : 0 < frames := by
  induction h <;> omega

/-- A program has at least nine tokens. -/
theorem DerivesProgram.nine_le_length {program : Program}
    (h : DerivesProgram dialect tokens program frames) : 9 ≤ tokens.length := by
  obtain ⟨_, _, _, _, _, _, hreturned, _, _⟩ := h
  have hpos := List.length_pos_iff.2 hreturned.tokens_ne_nil
  simp only [List.length_append, List.length_cons, List.length_nil]
  omega

/-- A program begins with its return type. -/
theorem DerivesProgram.exists_head {program : Program}
    (h : DerivesProgram dialect tokens program frames) :
    ∃ first, tokens.head? = some first ∧ first.kind = .intKeyword := by
  obtain ⟨hreturnType⟩ := h
  exact ⟨_, rfl, hreturnType⟩

/-- The name of a program stands among its tokens. -/
theorem DerivesProgram.exists_name {program : Program}
    (h : DerivesProgram dialect tokens program frames) :
    ∃ name ∈ tokens, name.kind = .identifier ∧ program.function.name = name.text := by
  cases h with
  | @program _ name _ _ _ _ _ _ _ _ _ _ hname =>
    refine ⟨name, ?_, hname, rfl⟩
    simp

end Grammar

end MiniC
