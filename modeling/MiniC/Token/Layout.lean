import MiniC.Token.Basic

/-!
# Texts that spell a token list

Between two tokens of a text stands a gap: blanks, comments and directive lines in any number
and order. This module describes gaps, tokens and whole texts by their shape alone, without
cutting anything.

* **`Gap`** holds of what may stand between two tokens, **`LastGap`** of what may stand behind
  the last one, where a line need not end.
* **`Token.WellFormed`** says that a token's text fits its kind.
* **`Token.Kind.RunsInto`** says which characters a token swallows, or is swallowed with, if they
  follow it directly.
* **`LaidOut`** spells out a text as gaps and token texts in turn, every token at its place.
-/

namespace MiniC

/-! ## Gaps -/

inductive Gap : List Char → Prop where
  | nil : Gap []
  | blank {c : Char} {gap : List Char} (hblank : c = ' ' ∨ c = '\t' ∨ c = '\r' ∨ c = '\n')
      (hgap : Gap gap) : Gap (c :: gap)
  | lineComment {body gap : List Char} (hbody : '\n' ∉ body) (hgap : Gap gap) :
      Gap ('/' :: '/' :: body ++ '\n' :: gap)
  | directive {body gap : List Char} (hbody : '\n' ∉ body) (hgap : Gap gap) :
      Gap ('#' :: body ++ '\n' :: gap)
  | blockComment {body gap : List Char} (hbody : ¬ ['*', '/'] <:+: body) (hgap : Gap gap) :
      Gap ('/' :: '*' :: body ++ '*' :: '/' :: gap)

/-- What may stand behind the last token: a gap, and then perhaps a comment or a directive that
the end of the text cuts off. -/
inductive LastGap : List Char → Prop where
  | gap {gap : List Char} (hgap : Gap gap) : LastGap gap
  | lineComment {gap body : List Char} (hgap : Gap gap) (hbody : '\n' ∉ body) :
      LastGap (gap ++ '/' :: '/' :: body)
  | directive {gap body : List Char} (hgap : Gap gap) (hbody : '\n' ∉ body) :
      LastGap (gap ++ '#' :: body)

/-- Two gaps in a row are one. -/
theorem Gap.append {a b : List Char} (ha : Gap a) (hb : Gap b) : Gap (a ++ b) := by
  induction ha with
  | nil => exact hb
  | blank hblank _ ih => exact .blank hblank ih
  | lineComment hbody _ ih => simpa using Gap.lineComment hbody ih
  | directive hbody _ ih => simpa using Gap.directive hbody ih
  | blockComment hbody _ ih => simpa using Gap.blockComment hbody ih

/-! ## Tokens -/

/-- The text of a token fits its kind: a literal is made of digits, an identifier is a word but
no keyword, and every other token is written with the spelling of its kind. -/
def Token.WellFormed (token : Token) : Prop :=
  match token.kind with
  | .intLiteral => token.text ≠ "" ∧ ∀ c ∈ token.text.toList, c.isDigit = true
  | .identifier =>
    (∃ c cs, token.text.toList = c :: cs ∧ (c.isAlpha = true ∨ c = '_') ∧
      ∀ d ∈ cs, d.isAlphanum = true ∨ d = '_') ∧
    token.text ≠ "int" ∧ token.text ≠ "return"
  | kind => kind.spelling? = some token.text

/-- A character that follows a token of a kind directly would be read together with it. -/
def Token.Kind.RunsInto (kind : Token.Kind) (next : Char) : Prop :=
  match kind with
  | .intLiteral => next.isDigit = true
  | .identifier | .intKeyword | .returnKeyword => next.isAlphanum = true ∨ next = '_'
  | .slash => next = '/' ∨ next = '*'
  | _ => False

/-! ## Texts -/

/-- `LaidOut start text tokens`: the text, which begins at the place `start`, spells the tokens.
Every token is well formed, stands at its place, and ends where its text ends. -/
inductive LaidOut : Location → List Char → List Token → Prop where
  | last {start : Location} {gap : List Char} (hgap : LastGap gap) : LaidOut start gap []
  | token {start : Location} {gap rest : List Char} {token : Token} {tokens : List Token}
      (hgap : Gap gap) (htoken : token.WellFormed) (hplace : token.location = start.after gap)
      (hend : ∀ c ∈ rest.head?, ¬ token.kind.RunsInto c)
      (hrest : LaidOut (token.location.after token.text.toList) rest tokens) :
      LaidOut start (gap ++ token.text.toList ++ rest) (token :: tokens)

end MiniC
