import MiniC.Text.Location

/-!
# Tokens

The words of the language: integer literals, identifiers, the two keywords, and punctuation.
A token keeps its kind, the text it was read from and the place of that text. The text is not
tied to the kind here: a token list may also be put together by hand, and only the lexer
promises that the two fit.
-/

namespace MiniC

namespace Token

inductive Kind where
  | intLiteral
  | identifier
  | intKeyword
  | returnKeyword
  | openParen
  | closeParen
  | openBrace
  | closeBrace
  | semicolon
  | plus
  | minus
  | star
  | slash
  | bang
  | tilde
  deriving DecidableEq, Repr

/-- The one spelling of a kind. Literals and identifiers have none: their text is free. -/
def Kind.spelling? : Kind → Option String
  | .intLiteral | .identifier => none
  | .intKeyword => some "int"
  | .returnKeyword => some "return"
  | .openParen => some "("
  | .closeParen => some ")"
  | .openBrace => some "\x7b"
  | .closeBrace => some "\x7d"
  | .semicolon => some ";"
  | .plus => some "+"
  | .minus => some "-"
  | .star => some "*"
  | .slash => some "/"
  | .bang => some "!"
  | .tilde => some "~"

/-- A kind in a message: its spelling in quotes, or its name if it has no spelling. -/
def Kind.describe (kind : Kind) : String :=
  match kind.spelling? with
  | some spelling => s!"'{spelling}'"
  | none => if kind = .intLiteral then "integer literal" else "identifier"

end Token

/-- A word of the language and the place where its text starts. -/
structure Token where
  kind : Token.Kind
  text : String
  location : Location := {}
  deriving DecidableEq, Repr

namespace Token

/-- The token of a kind that needs no text: it carries the spelling of its kind, and no text at
all for a literal or an identifier. -/
def ofKind (kind : Kind) : Token where
  kind := kind
  text := kind.spelling?.getD ""

/-- A token in a message. Literals and identifiers show their text; of every other token only
the kind is shown, whatever its text. -/
def describe (token : Token) : String :=
  match token.kind with
  | .intLiteral => s!"int literal {token.text}"
  | .identifier => s!"identifier '{token.text}'"
  | kind => kind.describe

end Token

end MiniC
