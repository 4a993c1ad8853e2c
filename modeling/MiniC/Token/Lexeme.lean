import MiniC.Token.Basic

/-!
# Cutting a text into lexemes

A text is cut from the left, and every character of it ends up in exactly one lexeme: a skipped
stretch (one blank, one comment, one directive line), the text of a token, or a fault. What a
lexeme is depends on nothing to its left, so a text is cut once and for all, and everything
else about lexing (locations, sessions that go on behind a fault) is a walk along the list
`Lexeme.ofText`.

## The crux

A slash opens a comment whenever a second slash or a star follows it, and only otherwise is it
a token; a comment without its closing star and slash takes all the rest of the text. Numbers
and words take as many characters as they can.

* **`Lexeme.cut`** takes one lexeme off a non-empty text.
* **`cut_text`** says that nothing is lost: the lexeme's text and the rest make up the input.
* **`flatten_ofText`** says the same of a whole text, and `ofText_cons` unfolds one step.
-/

namespace MiniC

namespace LexError

/-- Why a text cannot be read on. The last form carries a wording of its own. -/
inductive Cause where
  | unexpectedChar (c : Char)
  | unterminatedComment
  | other (text : String)
  deriving DecidableEq, Repr

def Cause.describe : Cause → String
  | .unexpectedChar c => s!"Unexpected character: '{c}'"
  | .unterminatedComment => "Unterminated block comment"
  | .other text => text

end LexError

namespace Lexeme

inductive Reading where
  | skipped
  | token (kind : Token.Kind)
  | fault (cause : LexError.Cause)
  deriving DecidableEq, Repr

end Lexeme

/-- A stretch of text that is read in one go. -/
structure Lexeme where
  reading : Lexeme.Reading
  text : List Char
  deriving DecidableEq, Repr

namespace Lexeme

/-! ## Character classes and tables

Letters and digits are those of ASCII. `Char.isWhitespace` holds of space, tab, carriage return
and newline, which are the blanks of the language. -/

def startsWord (c : Char) : Bool := c.isAlpha || c == '_'

def continuesWord (c : Char) : Bool := c.isAlphanum || c == '_'

/-- The kinds that are written with one character of their own. -/
def punctuation? : Char → Option Token.Kind
  | '(' => some .openParen
  | ')' => some .closeParen
  | '{' => some .openBrace
  | '}' => some .closeBrace
  | ';' => some .semicolon
  | '+' => some .plus
  | '-' => some .minus
  | '*' => some .star
  | '/' => some .slash
  | '!' => some .bang
  | '~' => some .tilde
  | _ => none

/-- A word is a keyword if it is spelled like one, and an identifier otherwise. -/
def wordKind (word : List Char) : Token.Kind :=
  if word = ['i', 'n', 't'] then .intKeyword
  else if word = ['r', 'e', 't', 'u', 'r', 'n'] then .returnKeyword
  else .identifier

/-! ## Comments -/

/-- The part of a text up to and including its first newline, and the rest. A text without a
newline is one line. -/
def throughNewline (cs : List Char) : List Char × List Char :=
  (cs.takeWhile (· != '\n') ++ (cs.dropWhile (· != '\n')).take 1,
    (cs.dropWhile (· != '\n')).drop 1)

/-- The part of a text up to and including the first star that a slash follows, with that slash,
and the rest; `none` if there is no such place. -/
def throughClose? : List Char → Option (List Char × List Char)
  | [] => none
  | [_] => none
  | c :: d :: cs =>
    if c = '*' ∧ d = '/' then some ([c, d], cs)
    else (throughClose? (d :: cs)).map fun (body, rest) => (c :: body, rest)

/-! ## One lexeme -/

/-- What follows a slash decides whether it is an operator or opens a comment. -/
def cutSlash (cs : List Char) : Lexeme × List Char :=
  match cs with
  | '/' :: _ => (⟨.skipped, '/' :: (throughNewline cs).1⟩, (throughNewline cs).2)
  | '*' :: inside =>
    match throughClose? inside with
    | some (body, rest) => (⟨.skipped, '/' :: '*' :: body⟩, rest)
    | none => (⟨.fault .unterminatedComment, '/' :: cs⟩, [])
  | _ => (⟨.token .slash, ['/']⟩, cs)

/-- Takes the first lexeme off the text `c :: cs`, and gives the rest. -/
def cut (c : Char) (cs : List Char) : Lexeme × List Char :=
  if c.isWhitespace then (⟨.skipped, [c]⟩, cs)
  else if c = '#' then (⟨.skipped, c :: (throughNewline cs).1⟩, (throughNewline cs).2)
  else if c = '/' then cutSlash cs
  else if c.isDigit then
    (⟨.token .intLiteral, c :: cs.takeWhile Char.isDigit⟩, cs.dropWhile Char.isDigit)
  else if startsWord c then
    (⟨.token (wordKind (c :: cs.takeWhile continuesWord)), c :: cs.takeWhile continuesWord⟩,
      cs.dropWhile continuesWord)
  else match punctuation? c with
    | some kind => (⟨.token kind, [c]⟩, cs)
    | none => (⟨.fault (.unexpectedChar c), [c]⟩, cs)

/-! ## Nothing is lost -/

/-- Cutting a text behind its first newline loses nothing. -/
theorem throughNewline_append (cs : List Char) :
    (throughNewline cs).1 ++ (throughNewline cs).2 = cs := by
  simp only [throughNewline, List.append_assoc, List.take_append_drop,
    List.takeWhile_append_dropWhile]

/-- Nor does cutting it behind the end of a comment. -/
theorem throughClose?_append {cs body rest : List Char}
    (h : throughClose? cs = some (body, rest)) : body ++ rest = cs := by
  fun_induction throughClose? cs generalizing body rest with
  | case1 => simp at h
  | case2 => simp at h
  | case3 c d cs _ =>
    obtain ⟨rfl, rfl⟩ := Prod.mk.inj (Option.some.inj h)
    rfl
  | case4 c d cs _ ih =>
    obtain ⟨⟨body', rest'⟩, hrec, hpair⟩ := Option.map_eq_some_iff.1 h
    obtain ⟨rfl, rfl⟩ := Prod.mk.inj hpair
    rw [List.cons_append, ih hrec]

/-- Whether a slash opens a comment or is an operator, it is cut off together with what belongs to
it and with nothing else. -/
theorem cutSlash_text (cs : List Char) :
    (cutSlash cs).1.text ++ (cutSlash cs).2 = '/' :: cs := by
  unfold cutSlash
  split
  · simp [throughNewline_append]
  · split
    next body rest hclose => simp [throughClose?_append hclose]
    next => simp
  · rfl

theorem cutSlash_text_head (cs : List Char) : (cutSlash cs).1.text.head? = some '/' := by
  unfold cutSlash
  split
  · rfl
  · split <;> rfl
  · rfl

/-- The lexeme cut off and the rest make up the text. -/
theorem cut_text (c : Char) (cs : List Char) :
    (cut c cs).1.text ++ (cut c cs).2 = c :: cs := by
  unfold cut
  split
  · rfl
  split
  · simp [throughNewline_append]
  split
  next hc => rw [hc, cutSlash_text]
  split
  · simp [List.takeWhile_append_dropWhile]
  split
  · simp [List.takeWhile_append_dropWhile]
  split <;> rfl

/-- A lexeme starts with the character it was cut at, so it is never empty. -/
theorem cut_text_head (c : Char) (cs : List Char) : (cut c cs).1.text.head? = some c := by
  unfold cut
  split
  · rfl
  split
  · rfl
  split
  next hc => rw [hc, cutSlash_text_head]
  split
  · rfl
  split
  · rfl
  split <;> rfl

/-- Every cut leaves a shorter text. This is why `ofText` ends. -/
theorem length_cut_lt (c : Char) (cs : List Char) : (cut c cs).2.length < (c :: cs).length := by
  have hsum := congrArg List.length (cut_text c cs)
  have hpos : 0 < (cut c cs).1.text.length := by
    cases h : (cut c cs).1.text with
    | nil => simpa [h] using cut_text_head c cs
    | cons => simp
  simp only [List.length_append] at hsum
  omega

/-! ## A whole text -/

def ofText : List Char → List Lexeme
  | [] => []
  | c :: cs => (cut c cs).1 :: ofText (cut c cs).2
termination_by text => text.length
decreasing_by exact length_cut_lt c cs

@[simp] theorem ofText_nil : ofText [] = [] := by simp [ofText]

/-- One step of cutting a text up. As `ofText` recurs on the length of the text, this equation is
what takes the place of unfolding it. -/
theorem ofText_cons (c : Char) (cs : List Char) :
    ofText (c :: cs) = (cut c cs).1 :: ofText (cut c cs).2 := by rw [ofText]

/-- The lexemes of a text, put together again, are the text. -/
theorem flatten_ofText (text : List Char) : ((ofText text).map Lexeme.text).flatten = text := by
  fun_induction ofText text with
  | case1 => rfl
  | case2 c cs ih => rw [List.map_cons, List.flatten_cons, ih, cut_text]

end Lexeme

end MiniC
