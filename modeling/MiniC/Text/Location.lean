/-!
# Positions in a text

A `Location` is a line and a column, both counted from one; columns count characters.
Walking over a text moves the location: a newline opens the next line, every other character
(tab and carriage return included) takes one column.

* **`Location.after`** is the walk over a whole text.
* **`after_append`** splits it: the location behind `a ++ b` is reached by walking `a`, then `b`.
-/

namespace MiniC

/-- A place in a text, 1-based. The default is the place of the first character. -/
structure Location where
  line : Nat := 1
  column : Nat := 1
  deriving DecidableEq, Repr

namespace Location

/-- The place behind one character that stands at `l`. -/
def advance (l : Location) (c : Char) : Location :=
  if c = '\n' then ⟨l.line + 1, 1⟩ else ⟨l.line, l.column + 1⟩

/-- The place behind a text that starts at `l`. -/
def after (l : Location) (text : List Char) : Location :=
  text.foldl advance l

def describe (l : Location) : String :=
  s!"line {l.line}, column {l.column}"

@[simp] theorem after_nil (l : Location) : l.after [] = l := rfl

@[simp] theorem after_cons (l : Location) (c : Char) (text : List Char) :
    l.after (c :: text) = (l.advance c).after text := rfl

/-- A text is walked in one go or piece by piece: `b` starts where `a` ends. -/
theorem after_append (l : Location) (a b : List Char) :
    l.after (a ++ b) = (l.after a).after b :=
  List.foldl_append

@[simp] theorem advance_newline (l : Location) : l.advance '\n' = ⟨l.line + 1, 1⟩ := rfl

/-- Every character but the newline takes one column, a tab like a letter. -/
theorem advance_of_ne {c : Char} (h : c ≠ '\n') (l : Location) :
    l.advance c = ⟨l.line, l.column + 1⟩ := if_neg h

end Location

end MiniC
