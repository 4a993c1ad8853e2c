import MiniC.Parse.Error

/-!
# Cursors

A cursor stands between two tokens of a list: some are consumed, the rest is to come. Looking
at the next token and moving past it are separate operations, and a cursor only moves forward;
to go back is to keep an older cursor.

The consumed tokens are kept with the latest one first, so a move is a step of constant cost
and `Cursor.toList` is the view that no operation changes.
-/

namespace MiniC

structure Cursor where
  /-- The tokens behind the cursor, the latest first. -/
  consumed : List Token
  /-- The tokens to come. -/
  rest : List Token
  deriving DecidableEq, Repr

namespace Cursor

def ofList (tokens : List Token) : Cursor := ⟨[], tokens⟩

/-- The whole list that the cursor moves in. -/
def toList (cursor : Cursor) : List Token := cursor.consumed.reverse ++ cursor.rest

/-- The number of tokens consumed. -/
def position (cursor : Cursor) : Nat := cursor.consumed.length

def remaining (cursor : Cursor) : Nat := cursor.rest.length

def isAtEnd (cursor : Cursor) : Bool := cursor.rest.isEmpty

def peek? (cursor : Cursor) : Option Token := cursor.rest.head?

def peekKind? (cursor : Cursor) : Option Token.Kind := cursor.peek?.map Token.kind

def check (cursor : Cursor) (kind : Token.Kind) : Bool := cursor.peekKind? == some kind

/-- The place of the next token; at the end that of the last token, and the start of the text
if there are no tokens at all. -/
def location (cursor : Cursor) : Location :=
  match cursor.rest, cursor.consumed with
  | token :: _, _ => token.location
  | [], token :: _ => token.location
  | [], [] => {}

/-- The cursor behind the next token. At the end it stays. -/
def advance (cursor : Cursor) : Cursor :=
  match cursor.rest with
  | [] => cursor
  | token :: rest => ⟨token :: cursor.consumed, rest⟩

/-- Consumes the next token if it is of a kind, and reports what was looked for if it is not. -/
def expect (cursor : Cursor) (kind : Token.Kind) (expected : Expectation) :
    Except ParseError Token × Cursor :=
  match cursor.peek? with
  | none => (.error (.unexpectedEnd expected), cursor)
  | some token =>
    if token.kind = kind then (.ok token, cursor.advance)
    else (.error (.unexpectedToken expected token), cursor)

/-! ## The view -/

@[simp] theorem toList_ofList (tokens : List Token) : (ofList tokens).toList = tokens := rfl

/-- A move changes nothing about the list that the cursor moves in. -/
@[simp] theorem toList_advance (cursor : Cursor) : cursor.advance.toList = cursor.toList := by
  obtain ⟨consumed, rest⟩ := cursor
  cases rest <;> simp [advance, toList]

/-- The position and what remains make up the list. -/
theorem position_add_remaining (cursor : Cursor) :
    cursor.position + cursor.remaining = cursor.toList.length := by
  simp [position, remaining, toList]

/-- What is to come is the list without what is consumed. -/
theorem drop_position (cursor : Cursor) : cursor.toList.drop cursor.position = cursor.rest := by
  rw [toList, position, ← List.length_reverse, List.drop_left]

/-- The token that comes next is the one at the position. -/
theorem getElem?_position (cursor : Cursor) :
    cursor.toList[cursor.position]? = cursor.peek? := by
  rw [← List.head?_drop, drop_position]
  rfl

/-- A move leaves one token less to come. At the end nothing is to come before and after it, and the
subtraction agrees with that. -/
theorem remaining_advance (cursor : Cursor) :
    cursor.advance.remaining = cursor.remaining - 1 := by
  obtain ⟨consumed, rest⟩ := cursor
  cases rest <;> simp [advance, remaining]

/-- A cursor moves forward only. -/
theorem position_le_advance (cursor : Cursor) : cursor.position ≤ cursor.advance.position := by
  obtain ⟨consumed, rest⟩ := cursor
  cases rest <;> simp [advance, position]

/-- Nothing is to be seen exactly where nothing remains. -/
theorem peek?_eq_none_iff (cursor : Cursor) : cursor.peek? = none ↔ cursor.remaining = 0 := by
  rw [peek?, remaining, List.head?_eq_none_iff, List.length_eq_zero_iff]

/-- The place of a cursor is that of the token it stands before. -/
theorem location_of_peek? {cursor : Cursor} {token : Token} (h : cursor.peek? = some token) :
    cursor.location = token.location := by
  obtain ⟨consumed, rest⟩ := cursor
  cases rest with
  | nil => cases h
  | cons first rest =>
    obtain rfl : first = token := Option.some.inj h
    rfl

/-- At the end it is that of the last token. -/
theorem location_of_getLast? {cursor : Cursor} {last : Token} (hend : cursor.peek? = none)
    (hlast : cursor.toList.getLast? = some last) : cursor.location = last.location := by
  obtain ⟨consumed, rest⟩ := cursor
  obtain rfl : rest = [] := List.head?_eq_none_iff.1 hend
  rw [toList, List.append_nil, List.getLast?_reverse] at hlast
  cases consumed with
  | nil => cases hlast
  | cons first consumed =>
    obtain rfl : first = last := Option.some.inj hlast
    rfl

theorem remaining_pos_of_peek? {cursor : Cursor} {token : Token}
    (h : cursor.peek? = some token) : 0 < cursor.remaining := by
  have hne : cursor.peek? ≠ none := by simp [h]
  rw [Ne, peek?_eq_none_iff] at hne
  omega

/-- Where a token is seen, the list is not used up. -/
theorem position_lt_of_peek? {cursor : Cursor} {token : Token}
    (h : cursor.peek? = some token) : cursor.position < cursor.toList.length := by
  have hposition := cursor.position_add_remaining
  have hremaining := remaining_pos_of_peek? h
  omega

/-- Where no token is seen, it is. -/
theorem position_of_peek?_eq_none {cursor : Cursor} (h : cursor.peek? = none) :
    cursor.position = cursor.toList.length := by
  have hposition := cursor.position_add_remaining
  rw [(peek?_eq_none_iff cursor).1 h] at hposition
  exact hposition

end Cursor

end MiniC
