import MiniC.Token.Basic

/-!
# Parse errors

Parsing stops at its first error. Two errors name what the rules were looking for, an
`Expectation`: the input ended there, or another token stood there. The third says that an
expression is nested deeper than the settings allow.
-/

namespace MiniC

/-- What a rule was looking for. The last form carries a wording of its own. -/
inductive Expectation where
  | functionDeclaration
  | returnType
  | functionName
  | openParameters
  | closeParameters
  | openBody
  | returnStatement
  | expression
  | closeParen
  | endOfStatement
  | closeBody
  | endOfInput
  | other (text : String)
  deriving DecidableEq, Repr

def Expectation.describe : Expectation → String
  | functionDeclaration => "a function declaration"
  | returnType => "return type 'int'"
  | functionName => "a function name"
  | openParameters => "'(' after the function name"
  | closeParameters => "')' to close the parameter list"
  | openBody => "'\x7b' before the function body"
  | returnStatement => "return statement"
  | expression => "an expression"
  | closeParen => "')' to close the parenthesized expression"
  | endOfStatement => "';' after the return expression"
  | closeBody => "'\x7d' after the function body"
  | endOfInput => "end of input after the function body"
  | other text => text

inductive ParseError where
  | unexpectedEnd (expected : Expectation)
  | unexpectedToken (expected : Expectation) (found : Token)
  | tooDeep (limit : Nat) (location : Location)
  deriving DecidableEq, Repr

namespace ParseError

def expected? : ParseError → Option Expectation
  | unexpectedEnd expected => some expected
  | unexpectedToken expected _ => some expected
  | tooDeep .. => none

/-- The place of an error. The end of the input has none. -/
def location? : ParseError → Option Location
  | unexpectedEnd _ => none
  | unexpectedToken _ found => some found.location
  | tooDeep _ location => some location

def message : ParseError → String
  | unexpectedEnd expected =>
    s!"Parse error: unexpected end of input, expected {expected.describe}"
  | unexpectedToken expected found =>
    s!"Parse error at {found.location.describe}: expected {expected.describe}, " ++
      s!"found {found.describe}"
  | tooDeep limit location =>
    s!"Parse error at {location.describe}: expression nested deeper than {limit} levels"

end ParseError

end MiniC
