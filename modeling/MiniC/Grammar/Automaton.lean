import MiniC.Parse.Dialect
import MiniC.Parse.Error

/-!
# The language, as a one-counter automaton

Whether a token list starts with a program can be seen without building a tree, token by token,
with no more memory than the number of parentheses that are open. The automaton first checks the
header; then it is either about to read an operand or behind one; the semicolon leads to the
closing brace.

Where it cannot go on, its state says what was expected: the automaton is also an account of the
errors of a program, one for each state.
-/

namespace MiniC.Grammar

/-- The states. `operand` and `after` know how many parentheses are open. -/
inductive Automaton where
  | returnType
  | functionName
  | openParameters
  | closeParameters
  | openBody
  | returnKeyword
  | operand (parens : Nat)
  | after (parens : Nat)
  | closing
  | accepted
  deriving DecidableEq, Repr

/-- How reading ends: behind a program, at a token that fits nowhere, or at the end of the
input. -/
inductive Verdict where
  | accepted
  | stuck (expected : Expectation) (found : Token)
  | exhausted (expected : Expectation)
  deriving DecidableEq, Repr

namespace Automaton

/-- What a state is waiting for. -/
def expected : Automaton → Expectation
  | returnType => .returnType
  | functionName => .functionName
  | openParameters => .openParameters
  | closeParameters => .closeParameters
  | openBody => .openBody
  | returnKeyword => .returnStatement
  | operand _ => .expression
  | after 0 => .endOfStatement
  | after (_ + 1) => .closeParen
  | closing => .closeBody
  | accepted => .endOfInput

def step? (dialect : Dialect) : Automaton → Token.Kind → Option Automaton
  | returnType, .intKeyword => some functionName
  | functionName, .identifier => some openParameters
  | openParameters, .openParen => some closeParameters
  | closeParameters, .closeParen => some openBody
  | openBody, .openBrace => some returnKeyword
  | returnKeyword, .returnKeyword => some (operand 0)
  | operand parens, .openParen => some (operand (parens + 1))
  | operand parens, .minus | operand parens, .bang | operand parens, .tilde =>
    some (operand parens)
  | operand parens, .intLiteral => some (after parens)
  | after parens, .plus | after parens, .star | after parens, .slash => some (operand parens)
  | after parens, .minus => if dialect = .standard then some (operand parens) else none
  | after (parens + 1), .closeParen => some (after parens)
  | after 0, .semicolon => some closing
  | closing, .closeBrace => some accepted
  | _, _ => none

/-- Reads tokens as far as they fit. The number is how many tokens did. -/
def read (dialect : Dialect) : Automaton → List Token → Verdict × Nat
  | accepted, _ => (.accepted, 0)
  | state, [] => (.exhausted state.expected, 0)
  | state, token :: rest =>
    match step? dialect state token.kind with
    | none => (.stuck state.expected token, 0)
    | some next => ((read dialect next rest).1, (read dialect next rest).2 + 1)

end Automaton

end MiniC.Grammar
