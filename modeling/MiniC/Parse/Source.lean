import MiniC.Parse.Parser
import MiniC.Token.Lexer

/-!
# From a text to a tree

`parseSource` lexes a text and parses the tokens. Either stage can fail, and `SourceError` says
which one did.
-/

namespace MiniC

inductive SourceError where
  | lex (error : LexError)
  | parse (error : ParseError)
  deriving DecidableEq, Repr

def SourceError.message : SourceError → String
  | lex error => error.message
  | parse error => error.message

def parseSource (settings : Settings) (source : String) : Except SourceError Program :=
  match tokenize source with
  | .error error => .error (.lex error)
  | .ok tokens =>
    match parseTokens settings tokens with
    | .error error => .error (.parse error)
    | .ok program => .ok program

/-- A fault of the lexer is reported whatever the settings are, for then nothing is parsed. -/
theorem parseSource_of_fault {settings : Settings} {source : String} {error : LexError}
    (h : tokenize source = .error error) : parseSource settings source = .error (.lex error) := by
  rw [parseSource, h]

/-- Behind the lexer a text is parsed as its tokens are. -/
theorem parseSource_of_tokens {settings : Settings} {source : String} {tokens : List Token}
    (h : tokenize source = .ok tokens) :
    parseSource settings source = (parseTokens settings tokens).mapError .parse := by
  rw [parseSource, h]
  dsimp only
  cases parseTokens settings tokens <;> rfl

end MiniC
