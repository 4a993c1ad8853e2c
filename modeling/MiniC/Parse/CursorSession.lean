import MiniC.Parse.Cursor

/-!
# Cursor sessions

A session drives one cursor by commands. Next to the cursor it holds one older cursor: `save`
puts a copy of the cursor there, `restore` brings it back. Each command has a reply, and a
transcript pairs the replies with the cursors they leave behind.
-/

namespace MiniC

namespace Cursor

inductive Command where
  | peek
  | peekKind
  | check (kind : Token.Kind)
  | advance
  | expect (kind : Token.Kind) (expected : Expectation)
  | save
  | restore
  deriving DecidableEq, Repr

inductive Reply where
  | token (token : Option Token)
  | kind (kind : Option Token.Kind)
  | holds (answer : Bool)
  | taken (outcome : Except ParseError Token)
  | done

/-- A cursor and the copy that was saved last. -/
structure Session where
  cursor : Cursor
  saved : Cursor
  deriving DecidableEq, Repr

namespace Session

/-- A session at the start of a list. The copy is the cursor at the start, too. -/
def ofList (tokens : List Token) : Session := ⟨.ofList tokens, .ofList tokens⟩

def run (session : Session) : Command → Reply × Session
  | .peek => (.token session.cursor.peek?, session)
  | .peekKind => (.kind session.cursor.peekKind?, session)
  | .check kind => (.holds (session.cursor.check kind), session)
  | .advance => (.token session.cursor.peek?, { session with cursor := session.cursor.advance })
  | .expect kind expected =>
    let (outcome, cursor) := session.cursor.expect kind expected
    (.taken outcome, { session with cursor })
  | .save => (.done, { session with saved := session.cursor })
  | .restore => (.done, { session with cursor := session.saved })

def transcript (session : Session) : List Command → List (Reply × Cursor)
  | [] => []
  | command :: commands =>
    let (reply, next) := session.run command
    (reply, next.cursor) :: next.transcript commands

end Session

end Cursor

end MiniC
