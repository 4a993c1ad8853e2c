import MiniC.Parse.Expression
import MiniC.Tree.Program

/-!
# The rules for programs

```text
program   ::= function
function  ::= "int" identifier "(" ")" "{" statement "}"
statement ::= "return" expression ";"
```
-/

namespace MiniC

namespace Rule

def statement (ops : Operators) (cap : Option Nat) : Rule Statement := do
  let keyword ← expect .returnKeyword .returnStatement
  let returned ← expression ops cap
  let _ ← expect .semicolon .endOfStatement
  return ⟨returned, keyword.location⟩

def function (ops : Operators) (cap : Option Nat) : Rule FunctionDefinition := do
  let returnType ← expect .intKeyword .returnType
  let name ← expect .identifier .functionName
  let _ ← expect .openParen .openParameters
  let _ ← expect .closeParen .closeParameters
  let _ ← expect .openBrace .openBody
  let body ← statement ops cap
  let _ ← expect .closeBrace .closeBody
  return ⟨name.text, body, returnType.location⟩

/-- Stops at a token that is still to come. -/
def endOfInput : Rule Unit := do
  match ← peek? with
  | none => return
  | some token => fail (.unexpectedToken .endOfInput token)

/-- A program: one function, and in strict mode nothing behind it. An empty token list is
refused in words of its own; whether it is empty is asked of the whole list, not of the part
that is still to come. -/
def program (ops : Operators) (cap : Option Nat) (strict : Bool) : Rule Program := do
  if (← cursor).toList = [] then fail (.unexpectedEnd .functionDeclaration)
  else
    let function ← function ops cap
    if strict then endOfInput
    return ⟨function⟩

end Rule

end MiniC
