import MiniC.Proofs.Text.Place
import MiniC.Proofs.Token.Tokenizing

/-!
# Which neighbours need a gap

Put words into a row with gaps between them, and read the text back. The words come back, each at
the place where it was put, if and only if nothing is glued where two of them meet. Two neighbours
are glued if there is no gap between them and the first would have taken the start of the second
for its own; and a slash is glued to a comment behind it, for the first slash of the comment makes
another comment of both.

## The crux

The lexer decides by one character whether a token goes on, and every word starts with a character
of its kind. So what a word runs into can be read off the kinds (`runsInto_iff_merges`). That
nothing but glue is in the way follows from the places: the lexer's own layout of the text starts
each token where it was put, hence has the same gaps (`Location.eq_of_after_eq`).
-/

namespace MiniC

open Lexeme (Spelled startsWord continuesWord wordKind punctuation?)

/-! ## Neighbours -/

/-- Words of the one kind, with words of the other directly behind them, are read as one. -/
def Token.Kind.Merges : Token.Kind → Token.Kind → Prop
  | .identifier, next | .intKeyword, next | .returnKeyword, next =>
    next = .identifier ∨ next = .intKeyword ∨ next = .returnKeyword ∨ next = .intLiteral
  | .intLiteral, next => next = .intLiteral
  | .slash, next => next = .slash ∨ next = .star
  | _, _ => False

/-- A token's kind and text, which fit, before it has a place. -/
structure Word where
  kind : Token.Kind
  text : String
  wellFormed : Token.WellFormed { kind, text }

def Word.tokenAt (word : Word) (location : Location) : Token := ⟨word.kind, word.text, location⟩

/-- Words in a row, with a gap before each of them and one behind the last. -/
inductive Layout where
  | last (gap : List Char) (hgap : LastGap gap)
  | word (gap : List Char) (hgap : Gap gap) (word : Word) (rest : Layout)

namespace Layout

def gap : Layout → List Char
  | last gap _ => gap
  | word gap _ _ _ => gap

def first? : Layout → Option Word
  | last _ _ => none
  | word _ _ first _ => some first

def text : Layout → List Char
  | last gap _ => gap
  | word gap _ first rest => gap ++ first.text.toList ++ rest.text

/-- The words as tokens, where `before` is the text in front: each token is at the line and the
column where its text starts. -/
def tokensBehind (before : List Char) : Layout → List Token
  | last _ _ => []
  | word gap _ first rest =>
    first.tokenAt (Location.behind (before ++ gap)) ::
      rest.tokensBehind (before ++ gap ++ first.text.toList)

/-- A word is glued to what is behind it: to a word without a gap between, or, if it is a slash, to
a comment. A gap that starts with a slash starts with a comment. -/
def Glued (front : Word) (rest : Layout) : Prop :=
  rest.gap = [] ∧ (∃ next ∈ rest.first?, front.kind.Merges next.kind) ∨
    front.kind = .slash ∧ rest.gap.head? = some '/'

def Loose : Layout → Prop
  | last _ _ => True
  | word _ _ first rest => ¬ Glued first rest ∧ rest.Loose

end Layout

/-! ## What a word runs into -/

variable {kind next : Token.Kind} {c : Char} {cs gap : List Char}

/-- A word runs into a digit exactly if it merges with a number, as identifiers and keywords do
too. -/
theorem runsInto_digit (h : c.isDigit = true) : kind.RunsInto c ↔ kind.Merges .intLiteral := by
  have hsign : ¬ (c = '/' ∨ c = '*') := by
    rintro (rfl | rfl) <;> revert h <;> decide
  cases kind <;> simp [Token.Kind.RunsInto, Token.Kind.Merges, Char.isAlphanum, h, hsign]

/-- It runs into the start of a word if it merges with a word, whichever kind that word is of. -/
theorem runsInto_wordStart (h : startsWord c = true) (cs : List Char) :
    kind.RunsInto c ↔ kind.Merges (wordKind cs) := by
  have hsign : ¬ (c = '/' ∨ c = '*') := by
    rintro (rfl | rfl) <;> revert h <;> decide
  have hword : c.isAlphanum = true ∨ c = '_' := by
    simpa [continuesWord] using Lexeme.continuesWord_of_startsWord h
  have hdigit := Lexeme.not_isDigit_of_startsWord h
  rcases Lexeme.wordKind_cases cs with ⟨-, hkind⟩ | ⟨-, hkind⟩ | ⟨-, -, hkind⟩ <;>
    rw [hkind] <;>
    cases kind <;> simp [Token.Kind.RunsInto, Token.Kind.Merges, hsign, hword, hdigit]

/-- It runs into a sign if it merges with it: only a slash does, with a slash or a star. -/
theorem runsInto_sign (h : punctuation? c = some next) : kind.RunsInto c ↔ kind.Merges next := by
  unfold punctuation? at h
  split at h <;> cases h <;>
    cases kind <;> simp +decide [Token.Kind.RunsInto, Token.Kind.Merges]

/-- **What a word runs into can be told from the two kinds.** The first character of a spelling
stands for its kind. -/
theorem runsInto_iff_merges (h : Spelled next (c :: cs)) : kind.RunsInto c ↔ kind.Merges next := by
  cases h with
  | number hfirst _ => exact runsInto_digit hfirst
  | word hfirst _ => exact runsInto_wordStart hfirst (c :: cs)
  | punctuation hkind => exact runsInto_sign hkind

/-- The characters that a gap starts with. -/
def OpensGap (c : Char) : Prop :=
  c = ' ' ∨ c = '\t' ∨ c = '\r' ∨ c = '\n' ∨ c = '#' ∨ c = '/'

/-- They belong to no word, and only a slash runs into one of them. -/
theorem runsInto_opensGap (h : OpensGap c) : kind.RunsInto c ↔ kind = .slash ∧ c = '/' := by
  rcases h with rfl | rfl | rfl | rfl | rfl | rfl <;>
    cases kind <;> simp +decide [Token.Kind.RunsInto]

/-- The first character of a gap is a blank, or opens a comment or a directive. -/
theorem Gap.opens (h : Gap gap) (hc : c ∈ gap.head?) : OpensGap c := by
  unfold OpensGap
  cases h with
  | nil => cases hc
  | blank hblank _ =>
    cases hc
    rcases hblank with rfl | rfl | rfl | rfl <;> simp
  | lineComment | directive | blockComment =>
    cases hc
    simp

theorem LastGap.opens (h : LastGap gap) (hc : c ∈ gap.head?) : OpensGap c := by
  cases h with
  | gap hgap => exact hgap.opens hc
  | @lineComment gap body hgap _ | @directive gap body hgap _ =>
    cases gap with
    | nil =>
      cases hc
      simp [OpensGap]
    | cons d gap => exact hgap.opens hc

/-! ## Junctures -/

/-- The first token of a text that is laid out, and what is in front of it and behind it. -/
theorem LaidOut.token_inv {start : Location} {text : List Char} {token : Token}
    {tokens : List Token} (h : LaidOut start text (token :: tokens)) :
    ∃ gap rest, text = gap ++ token.text.toList ++ rest ∧ token.location = start.after gap ∧
      (∀ c ∈ rest.head?, ¬ token.kind.RunsInto c) ∧
      LaidOut (token.location.after token.text.toList) rest tokens := by
  cases h with
  | @token _ gap rest _ _ _ _ hplace hend hrest => exact ⟨gap, rest, rfl, hplace, hend, hrest⟩

theorem spelled_eq_cons {word : List Char} (h : Spelled kind word) :
    ∃ c cs, word = c :: cs := by
  cases h <;> exact ⟨_, _, rfl⟩

namespace Layout

theorem lastGap_gap (layout : Layout) : LastGap layout.gap := by
  cases layout with
  | last _ hgap => exact hgap
  | word _ hgap _ _ => exact .gap hgap

/-- A text with a gap in front starts as the gap does. -/
theorem head?_text_of_gap {layout : Layout} (h : layout.gap = c :: cs) :
    layout.text.head? = some c := by
  cases layout <;> simp_all [Layout.gap, Layout.text]

/-- **What a word runs into is what it is glued to.** -/
theorem runsInto_iff_glued (front : Word) (rest : Layout) :
    (∃ c ∈ rest.text.head?, front.kind.RunsInto c) ↔ Glued front rest := by
  cases hgap : rest.gap with
  -- with a gap between, only the slash of a comment can be run into
  | cons c gap =>
    have hopens := rest.lastGap_gap.opens (c := c) (by simp [hgap])
    rw [head?_text_of_gap hgap]
    simp [Glued, hgap, runsInto_opensGap hopens]
  -- without one, the first character of the next word decides
  | nil =>
    cases rest with
    | last gap _ =>
      obtain rfl : gap = [] := hgap
      simp [Glued, Layout.text, Layout.gap, first?]
    | word gap _ next rest =>
      obtain rfl : gap = [] := hgap
      have hspelled : Spelled next.kind next.text.toList := next.wellFormed.spelled
      obtain ⟨c, cs, hchars⟩ := spelled_eq_cons hspelled
      rw [hchars] at hspelled
      simp [Glued, Layout.text, Layout.gap, first?, hchars, runsInto_iff_merges hspelled]

/-- The text of a layout is laid out with its words if and only if nothing is glued. -/
theorem laidOut_iff_loose (layout : Layout) (before : List Char) :
    LaidOut (Location.behind before) layout.text (layout.tokensBehind before) ↔ layout.Loose := by
  induction layout generalizing before with
  | last gap hgap => exact iff_of_true (.last hgap) trivial
  | word gap hgap first rest ih =>
    constructor
    · intro h
      obtain ⟨gap', rest', htext, hplace, hend, hrest⟩ := h.token_inv
      dsimp only [Word.tokenAt] at htext hplace hend hrest
      rw [← Location.after_behind] at hplace
      rw [Layout.text, List.append_assoc, List.append_assoc] at htext
      -- the token is at one place only, so the gap in front of it is the one that was put there
      obtain rfl : gap = gap' := Location.eq_of_after_eq htext hplace
      obtain rfl : rest.text = rest' := by simpa using htext
      rw [Location.after_behind] at hrest
      refine ⟨fun hglued => ?_, (ih _).1 hrest⟩
      obtain ⟨c, hc, hruns⟩ := (runsInto_iff_glued first rest).2 hglued
      exact hend c hc hruns
    · rintro ⟨hglued, hloose⟩
      have hplace := (Location.after_behind before gap).symm
      show LaidOut _ (gap ++ (first.tokenAt (Location.behind (before ++ gap))).text.toList ++
        rest.text) (_ :: _)
      refine .token hgap first.wellFormed hplace ?_ ?_
      · intro c hc hruns
        exact hglued ((runsInto_iff_glued first rest).1 ⟨c, hc, hruns⟩)
      · rw [Word.tokenAt, Location.after_behind]
        exact (ih _).2 hloose

end Layout

/-- **The words of a layout are read back if and only if nothing is glued.** -/
theorem tokenize_layout_iff (layout : Layout) :
    tokenize (String.ofList layout.text) = .ok (layout.tokensBehind []) ↔ layout.Loose := by
  have hwalk : tokenize (String.ofList layout.text) =
      (Lexer.walk (Location.behind []) (Lexeme.ofText layout.text)).1 := by
    simp [tokenize, Lexer.ofSource, Lexer.tokenize, Location.behind_nil]
  rw [hwalk, Lexer.walk_eq_ok_iff, Layout.laidOut_iff_loose]

end MiniC
