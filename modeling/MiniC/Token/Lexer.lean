import MiniC.Token.Lexeme

/-!
# The lexer

A `Lexer` stands somewhere in a text: it holds the lexemes that are still to come and the place
where the next one starts. One call of `Lexer.tokenize` walks along the lexemes up to the end of
the text or to the first fault. At a fault the call answers with the error alone (the tokens it
had read are given up), and the lexer stands behind the fault, so that a next call reads on.

* **`Lexer.walk`** is the walk, by recursion on the lexemes.
* **`Lexer.session`** makes several calls in a row on one lexer.
-/

namespace MiniC

structure LexError where
  cause : LexError.Cause
  location : Location
  deriving DecidableEq, Repr

def LexError.message (error : LexError) : String :=
  s!"Lexer error at {error.location.describe}: {error.cause.describe}"

/-- A place in a text and what is still to be read there. -/
structure Lexer where
  pending : List Lexeme
  location : Location := {}
  deriving DecidableEq, Repr

def Token.ofLexeme (kind : Token.Kind) (text : List Char) (location : Location) : Token :=
  ⟨kind, String.ofList text, location⟩

namespace Lexer

def ofSource (source : String) : Lexer := ⟨Lexeme.ofText source.toList, {}⟩

/-- Reads lexemes from a place on, up to the end or the first fault, and gives the lexer that is
left. -/
def walk (start : Location) : List Lexeme → Except LexError (List Token) × Lexer
  | [] => (.ok [], ⟨[], start⟩)
  | lexeme :: later =>
    let stop := start.after lexeme.text
    match lexeme.reading with
    | .skipped => walk stop later
    | .fault cause => (.error ⟨cause, start⟩, ⟨later, stop⟩)
    | .token kind =>
      let (result, lexer) := walk stop later
      (result.map (Token.ofLexeme kind lexeme.text start :: ·), lexer)

/-- One call: all tokens up to the end of the text, or the first fault. -/
def tokenize (lexer : Lexer) : Except LexError (List Token) × Lexer :=
  walk lexer.location lexer.pending

def session : Nat → Lexer → List (Except LexError (List Token))
  | 0, _ => []
  | calls + 1, lexer => lexer.tokenize.1 :: session calls lexer.tokenize.2

/-- A lexer that has nothing left to read answers with no tokens and stays as it is. -/
@[simp] theorem tokenize_exhausted (start : Location) :
    tokenize ⟨[], start⟩ = (.ok [], ⟨[], start⟩) := rfl

end Lexer

def tokenize (source : String) : Except LexError (List Token) :=
  (Lexer.ofSource source).tokenize.1

end MiniC
