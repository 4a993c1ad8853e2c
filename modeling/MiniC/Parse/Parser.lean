import MiniC.Parse.Program
import MiniC.Parse.Settings

/-!
# Parsers

A `Parser` has settings and a state over one token list. Each call of `parseProgram` reads one
program from where the last call left the cursor, whether that call succeeded or failed: a list
that holds several functions can be read call by call.
-/

namespace MiniC

structure Parser where
  settings : Settings
  state : Rule.State
  deriving DecidableEq, Repr

namespace Parser

def ofTokens (settings : Settings) (tokens : List Token) : Parser :=
  ⟨settings, { cursor := .ofList tokens }⟩

/-- The number of tokens consumed by all calls so far. -/
def position (parser : Parser) : Nat := parser.state.cursor.position

def rule (settings : Settings) : Rule Program :=
  Rule.program settings.dialect.operators settings.maxDepth settings.strict

/-- Reads a program from where the parser stands. -/
def parseProgram (parser : Parser) : Except ParseError Program × Parser :=
  match (rule parser.settings).run parser.state with
  | .ok program state => (.ok program, { parser with state })
  | .error error state => (.error error, { parser with state })

/-- A call in a list without tokens leaves the parser as it is. -/
theorem parseProgram_of_nil {parser : Parser} (hnil : parser.state.cursor.toList = []) :
    parser.parseProgram = (.error (.unexpectedEnd .functionDeclaration), parser) := by
  unfold parseProgram
  rw [rule, Rule.program, Rule.run_bind]
  dsimp only [Rule.cursor]
  rw [if_pos hnil]
  rfl

def session : Nat → Parser → List (Except ParseError Program × Parser)
  | 0, _ => []
  | calls + 1, parser => parser.parseProgram :: session calls parser.parseProgram.2

end Parser

def parseTokens (settings : Settings) (tokens : List Token) : Except ParseError Program :=
  (Parser.ofTokens settings tokens).parseProgram.1

end MiniC
