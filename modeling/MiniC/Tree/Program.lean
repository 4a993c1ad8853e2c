import MiniC.Tree.Expr

/-!
# Programs

A program is one function without parameters, whose body is one `return` statement.
-/

namespace MiniC

/-- The only statement: it returns the value of an expression. Its place is that of the keyword. -/
structure Statement where
  returned : Expr
  location : Location
  deriving DecidableEq, Repr

/-- A function of no parameters. Its place is that of the return type. -/
structure FunctionDefinition where
  name : String
  body : Statement
  location : Location
  deriving DecidableEq, Repr

/-- A program holds exactly one function. -/
structure Program where
  function : FunctionDefinition
  deriving DecidableEq, Repr

def Program.returned (program : Program) : Expr := program.function.body.returned

/-- The program with another expression in place of the returned one. -/
def Program.withReturned (program : Program) (e : Expr) : Program :=
  ⟨⟨program.function.name, ⟨e, program.function.body.location⟩, program.function.location⟩⟩

/-- The program with every place put back to the start of the text. -/
def Program.unplaced (program : Program) : Program :=
  ⟨⟨program.function.name, ⟨program.returned.unplaced, {}⟩, {}⟩⟩

end MiniC
