import MiniC.Proofs.Token.Juncture

/-!
# Where the lexer fails

Read a text from the left, one item after the other: a blank, a comment, a directive line, or a
token that takes as many characters as it can. The lexer fails exactly if this reading halts before
the end of the text, and there are two ways to halt: at a character that no item begins with, and at
a comment that is never closed.

## The crux

What an item is depends on nothing to its left, so one text is read in one way only
(`Munch.unique`). Two readings of a text therefore go along with each other until one of them stops
(`Munches.length_le`), and a fault never lies inside of an item.

## The architecture

* **`Munch`** is one item in front of a rest, **`Munches`** a number of them, **`Halts`** says that
  no item comes next. All three look at the text alone.
* **`Munch.cut`** finds the item again among the lexemes, **`Munch.replace`** puts another text
  behind it, and **`halts_iff`** reads off the lexemes in what way a text halts.
* **`Munches.walk_iff`** is the walk along what is read, **`Halts.failsAt`** the step at its end.
* **`tokenize_error_iff_halts`** is the result.
-/

namespace MiniC

open Lexeme (Spelled startsWord punctuation? ofText ofText_cons ofText_nil)

/-! ## Reading without a lexer -/

/-- `Munch item rest`: the text `item ++ rest` begins with the item, which takes as many characters
as it can. A line that the end of the text cuts off has nothing behind it. -/
inductive Munch : List Char → List Char → Prop where
  | blank {c : Char} {rest : List Char} (hblank : c = ' ' ∨ c = '\t' ∨ c = '\r' ∨ c = '\n') :
      Munch [c] rest
  | lineComment {body rest : List Char} (hbody : '\n' ∉ body) :
      Munch ('/' :: '/' :: body ++ ['\n']) rest
  | lastLineComment {body : List Char} (hbody : '\n' ∉ body) : Munch ('/' :: '/' :: body) []
  | directive {body rest : List Char} (hbody : '\n' ∉ body) : Munch ('#' :: body ++ ['\n']) rest
  | lastDirective {body : List Char} (hbody : '\n' ∉ body) : Munch ('#' :: body) []
  | blockComment {body rest : List Char} (hbody : ¬ ['*', '/'] <:+: body) :
      Munch ('/' :: '*' :: body ++ ['*', '/']) rest
  | token {token : Token} {rest : List Char} (htoken : token.WellFormed)
      (hend : ∀ c ∈ rest.head?, ¬ token.kind.RunsInto c) : Munch token.text.toList rest

/-- The text `front ++ rest` is read item by item up to the rest. -/
inductive Munches : List Char → List Char → Prop where
  | nil {rest : List Char} : Munches [] rest
  | item {item front rest : List Char} (hitem : Munch item (front ++ rest))
      (hfront : Munches front rest) : Munches (item ++ front) rest

/-- There is text left, and no item comes next. -/
def Halts (rest : List Char) : Prop :=
  rest ≠ [] ∧ ∀ item behind, rest = item ++ behind → ¬ Munch item behind

/-- A character that no item begins with. -/
def Stray (c : Char) : Prop :=
  c.isAlpha = false ∧ c.isDigit = false ∧
    c ∉ ['_', '+', '-', '*', '/', '!', '~', '(', ')', '{', '}', ';', '#', ' ', '\t', '\r', '\n']

variable {c : Char} {cs item item' front front' rest rest' : List Char} {start : Location}

/-! ## Items and lexemes -/

namespace Munch

/-- An item is the next lexeme, and none that is a fault. -/
theorem cut (h : Munch item rest) :
    ∃ c cs reading, item ++ rest = c :: cs ∧ Lexeme.cut c cs = (⟨reading, item⟩, rest) ∧
      ∀ cause, reading ≠ .fault cause := by
  cases h with
  | @blank c _ hblank =>
    exact ⟨c, rest, _, rfl, Lexeme.cut_blank (Lexeme.isBlank_iff.2 hblank) rest, nofun⟩
  | @lineComment body _ hbody =>
    exact ⟨'/', _, _, by simp, Lexeme.cut_lineComment hbody rest, nofun⟩
  | @lastLineComment body hbody =>
    exact ⟨'/', _, _, by simp, Lexeme.cut_lastLineComment hbody, nofun⟩
  | @directive body _ hbody =>
    exact ⟨'#', _, _, by simp, Lexeme.cut_directive hbody rest, nofun⟩
  | @lastDirective body hbody =>
    exact ⟨'#', _, _, by simp, Lexeme.cut_lastDirective hbody, nofun⟩
  | @blockComment body _ hbody =>
    exact ⟨'/', _, _, by simp, Lexeme.cut_blockComment hbody rest, nofun⟩
  | @token token _ htoken hend =>
    obtain ⟨c, cs, htext, hcut⟩ := Lexeme.cut_of_spelled htoken.spelled hend
    exact ⟨c, cs, _, htext, hcut, nofun⟩

theorem ne_nil (h : Munch item rest) : item ≠ [] := by
  obtain ⟨c, cs, reading, -, hcut, -⟩ := h.cut
  have hhead := Lexeme.cut_text_head c cs
  rw [hcut] at hhead
  rintro rfl
  cases hhead

/-- A text is read on in one way only. -/
theorem unique (h : Munch item rest) (h' : Munch item' rest')
    (htext : item ++ rest = item' ++ rest') : item = item' ∧ rest = rest' := by
  obtain ⟨c, cs, reading, hcs, hcut, -⟩ := h.cut
  obtain ⟨c', cs', reading', hcs', hcut', -⟩ := h'.cut
  rw [hcs, hcs'] at htext
  obtain ⟨rfl, rfl⟩ := List.cons.inj htext
  rw [hcut] at hcut'
  obtain ⟨hlexeme, rfl⟩ := Prod.mk.inj hcut'
  exact ⟨congrArg Lexeme.text hlexeme, rfl⟩

/-- An item that is not cut off by the end of the text does not need what is behind it. It is the
same item in front of anything that no token runs into. -/
theorem replace (h : Munch item (front ++ rest)) (hne : rest ≠ [])
    (hends : ∀ c ∈ rest'.head?, ∀ kind : Token.Kind, ¬ kind.RunsInto c) :
    Munch item (front ++ rest') := by
  generalize hbehind : front ++ rest = behind at h
  cases h with
  | blank hblank => exact .blank hblank
  | lineComment hbody => exact .lineComment hbody
  | directive hbody => exact .directive hbody
  | blockComment hbody => exact .blockComment hbody
  | lastLineComment | lastDirective => exact absurd (List.append_eq_nil_iff.1 hbehind).2 hne
  | @token token _ htoken hend =>
    refine .token htoken fun c hc => ?_
    cases front with
    | nil => exact hends c hc token.kind
    | cons d front =>
      rw [← hbehind] at hend
      exact hend c hc

/-- A gap that is not empty begins with an item. -/
theorem of_gap {gap : List Char} (h : Gap gap) (hne : gap ≠ []) :
    ∃ item behind, gap = item ++ behind ∧ ∀ rest, Munch item (behind ++ rest) := by
  cases h with
  | nil => exact absurd rfl hne
  | @blank c gap hblank _ => exact ⟨[c], gap, rfl, fun _ => .blank hblank⟩
  | @lineComment body gap hbody _ => exact ⟨_, gap, by simp, fun _ => .lineComment hbody⟩
  | @directive body gap hbody _ => exact ⟨_, gap, by simp, fun _ => .directive hbody⟩
  | @blockComment body gap hbody _ => exact ⟨_, gap, by simp, fun _ => .blockComment hbody⟩

/-- So does the gap at the end of a text. A line that is cut off has nothing behind it. -/
theorem of_lastGap {gap : List Char} (h : LastGap gap) (hne : gap ≠ []) :
    ∃ item behind, gap = item ++ behind ∧ Munch item behind := by
  -- the line at the end is an item itself, or stands behind one
  have hlast {gap last : List Char} (hgap : Gap gap) (hmunch : Munch last []) :
      ∃ item behind, gap ++ last = item ++ behind ∧ Munch item behind := by
    by_cases hnil : gap = []
    · exact ⟨last, [], by simp [hnil], hmunch⟩
    · obtain ⟨item, behind, rfl, hitem⟩ := of_gap hgap hnil
      exact ⟨item, behind ++ last, by simp, hitem last⟩
  cases h with
  | gap hgap =>
    obtain ⟨item, behind, hitem, hmunch⟩ := of_gap hgap hne
    exact ⟨item, behind, hitem, by simpa using hmunch []⟩
  | lineComment hgap hbody => exact hlast hgap (.lastLineComment hbody)
  | directive hgap hbody => exact hlast hgap (.lastDirective hbody)

end Munch

/-! ## The two ways to halt -/

/-- A stray character is one that `Lexeme.cut` has no other use for: the test in terms of characters
and the one in terms of classes agree. -/
theorem stray_iff : Stray c ↔ c.isWhitespace = false ∧ c ≠ '#' ∧ c.isDigit = false ∧
    startsWord c = false ∧ punctuation? c = none := by
  unfold Stray
  constructor
  · rintro ⟨hletter, hdigit, hsigns⟩
    simp only [List.mem_cons, List.not_mem_nil, or_false, not_or] at hsigns
    refine ⟨?_, ?_, hdigit, ?_, ?_⟩
    · simp [Char.isWhitespace, hsigns]
    · simp [hsigns]
    · simp [startsWord, hletter, hsigns]
    · unfold punctuation?
      split <;> simp_all
  · rintro ⟨hblank, hhash, hdigit, hword, hsign⟩
    have hletter : c.isAlpha = false := (Bool.or_eq_false_iff.1 hword).1
    refine ⟨hletter, hdigit, fun hmem => ?_⟩
    simp only [List.mem_cons, List.not_mem_nil, or_false] at hmem
    rcases hmem with rfl | rfl | rfl | rfl | rfl | rfl | rfl | rfl | rfl | rfl | rfl | rfl | rfl |
      rfl | rfl | rfl | rfl <;> simp_all [startsWord, punctuation?, Char.isWhitespace]

/-- At a stray character a fault of that one character is cut off. -/
theorem cut_of_stray (h : Stray c) (cs : List Char) :
    Lexeme.cut c cs = (⟨.fault (.unexpectedChar c), [c]⟩, cs) := by
  obtain ⟨hblank, hhash, hdigit, hword, hsign⟩ := stray_iff.1 h
  have hslash : c ≠ '/' := by
    rintro rfl
    cases hsign
  simp [Lexeme.cut, hblank, hhash, hslash, hdigit, hword, hsign]

/-- A comment that is never closed takes all the rest of the text, as a fault. -/
theorem cut_of_open {body : List Char} (h : ¬ ['*', '/'] <:+: body) :
    Lexeme.cut '/' ('*' :: body) = (⟨.fault .unterminatedComment, '/' :: '*' :: body⟩, []) := by
  have hnone : Lexeme.throughClose? body = none := by
    cases hclose : Lexeme.throughClose? body with
    | none => rfl
    | some pair =>
      obtain ⟨closed, behind⟩ := pair
      obtain ⟨inside, rfl, -⟩ := Lexeme.throughClose?_eq_some hclose
      exact absurd ⟨inside, behind, Lexeme.throughClose?_append hclose⟩ h
  show Lexeme.cutSlash ('*' :: body) = _
  rw [Lexeme.cutSlash, hnone]

/-- A lexeme that is a fault is no item, so the text halts there. -/
theorem Halts.of_fault {reading : Lexeme.Reading} {word : List Char} {cause : LexError.Cause}
    (hcut : Lexeme.cut c cs = (⟨reading, word⟩, rest)) (hfault : reading = .fault cause) :
    Halts (c :: cs) := by
  refine ⟨List.cons_ne_nil c cs, fun item behind htext hmunch => ?_⟩
  obtain ⟨c', cs', reading', hcs, hcut', hnone⟩ := hmunch.cut
  rw [← htext] at hcs
  obtain ⟨rfl, rfl⟩ := List.cons.inj hcs
  rw [hcut] at hcut'
  obtain rfl := congrArg (fun split => split.1.reading) hcut'
  exact hnone cause hfault

/-- Where a text halts, the next lexeme is a fault, and `Lexeme.cut_fits` says of which form. -/
theorem Halts.cases (h : Halts rest) :
    (∃ c cs, rest = c :: cs ∧ Stray c) ∨
      ∃ body, rest = '/' :: '*' :: body ∧ ¬ ['*', '/'] <:+: body := by
  obtain ⟨hne, hitems⟩ := h
  cases rest with
  | nil => exact absurd rfl hne
  | cons c cs =>
    have hfits := Lexeme.cut_fits c cs
    have htext := Lexeme.cut_text c cs
    have hhead := Lexeme.cut_text_head c cs
    generalize Lexeme.cut c cs = split at hfits htext hhead
    obtain ⟨⟨reading, word⟩, behind⟩ := split
    dsimp only at htext hhead
    have hword : word ≠ [] := by
      rintro rfl
      cases hhead
    -- what the lexer does not take for a fault is an item
    match reading with
    | .skipped =>
      exfalso
      rcases hfits with hgap | ⟨hgap, rfl⟩
      · obtain ⟨item, later, rfl, hmunch⟩ := Munch.of_gap hgap hword
        exact hitems item (later ++ behind) (by simp [← htext]) (hmunch behind)
      · obtain ⟨item, later, rfl, hmunch⟩ := Munch.of_lastGap hgap hword
        exact hitems item later (by simp [← htext]) hmunch
    | .token kind =>
      exfalso
      obtain ⟨hspelled, hend⟩ := hfits
      have hchars : (Token.ofLexeme kind word {}).text.toList = word := String.toList_ofList
      have hwellFormed : (Token.ofLexeme kind word {}).WellFormed :=
        Token.wellFormed_of_spelled (by rwa [hchars])
      have hmunch : Munch (Token.ofLexeme kind word {}).text.toList behind :=
        .token hwellFormed hend
      rw [hchars] at hmunch
      exact hitems word behind htext.symm hmunch
    | .fault (.unexpectedChar d) =>
      obtain ⟨rfl, hchar⟩ := hfits
      obtain ⟨rfl, rfl⟩ := List.cons.inj htext
      refine .inl ⟨d, behind, rfl, stray_iff.2 hchar⟩
    | .fault .unterminatedComment =>
      obtain ⟨body, hbody, hopen, rfl⟩ := hfits
      exact .inr ⟨body, by rw [← htext, ← hbody, List.append_nil], hopen⟩
    | .fault (.other _) => exact hfits.elim

/-- A text halts at a stray character or at a comment that is never closed. -/
theorem halts_iff : Halts rest ↔ (∃ c cs, rest = c :: cs ∧ Stray c) ∨
    ∃ body, rest = '/' :: '*' :: body ∧ ¬ ['*', '/'] <:+: body := by
  constructor
  · exact Halts.cases
  · rintro (⟨c, cs, rfl, hstray⟩ | ⟨body, rfl, hopen⟩)
    · exact .of_fault (cut_of_stray hstray cs) rfl
    · exact .of_fault (cut_of_open hopen) rfl

/-! ## Readings of one text -/

namespace Munches

/-- There is always a reading up to the end of the text or to where it halts. -/
theorem exists_munches (text : List Char) :
    ∃ front rest, text = front ++ rest ∧ Munches front rest ∧ (rest = [] ∨ Halts rest) := by
  -- every item takes a character off, so the induction is on the length of the text
  induction hn : text.length using Nat.strongRecOn generalizing text with
  | ind n ih =>
    by_cases hnil : text = []
    · exact ⟨[], [], hnil, .nil, .inl rfl⟩
    by_cases hitem : ∃ item behind, text = item ++ behind ∧ Munch item behind
    · obtain ⟨item, behind, rfl, hmunch⟩ := hitem
      have hlength : behind.length < n := by
        have hpos := List.length_pos_iff.2 hmunch.ne_nil
        rw [← hn, List.length_append]
        omega
      obtain ⟨front, rest, rfl, hfront, hstop⟩ := ih _ hlength behind rfl
      exact ⟨item ++ front, rest, by simp, .item hmunch hfront, hstop⟩
    · refine ⟨[], text, rfl, .nil, .inr ⟨hnil, fun item behind htext hmunch => ?_⟩⟩
      exact hitem ⟨item, behind, htext, hmunch⟩

/-- The same of a number of items. Only the last one touches what is exchanged. -/
theorem replace (h : Munches front rest) (hne : rest ≠ [])
    (hends : ∀ c ∈ rest'.head?, ∀ kind : Token.Kind, ¬ kind.RunsInto c) : Munches front rest' := by
  induction h with
  | nil => exact .nil
  | item hitem _ ih => exact .item (hitem.replace hne hends) (ih hne)

/-- What comes before the place where a text halts reads on up to its own end. -/
theorem of_halts (h : Munches front rest) (hne : rest ≠ []) : Munches front [] :=
  h.replace hne (by simp)

/-- Two readings of a text agree, and the one that halts has gone as far as the other. -/
theorem length_le (h : Munches front rest) (h' : Munches front' rest') (hhalts : Halts rest')
    (htext : front ++ rest = front' ++ rest') : front.length ≤ front'.length := by
  induction h generalizing front' with
  | nil => exact Nat.zero_le _
  | @item item front rest hitem _ ih =>
    rw [List.append_assoc] at htext
    cases h' with
    | nil => exact absurd hitem (hhalts.2 item (front ++ rest) htext.symm)
    | @item item' front' _ hitem' hfront' =>
      rw [List.append_assoc] at htext
      obtain ⟨rfl, hbehind⟩ := hitem.unique hitem' htext
      have hle := ih hfront' hbehind
      simp only [List.length_append]
      omega

theorem trans (h : Munches front (front' ++ rest)) (hbehind : Munches front' rest) :
    Munches (front ++ front') rest := by
  generalize hall : front' ++ rest = all at h
  induction h with
  | nil => exact hbehind
  | item hitem _ ih =>
    subst hall
    rw [List.append_assoc]
    refine .item ?_ (ih rfl)
    rwa [List.append_assoc]

/-- A reading goes on with one more item at its end. -/
theorem append (h : Munches front (item ++ rest)) (hitem : Munch item rest) :
    Munches (front ++ item) rest := by
  refine h.trans ?_
  have hone : Munches (item ++ []) rest := .item hitem .nil
  rwa [List.append_nil] at hone

end Munches

/-! ## Along a reading -/

/-- A lexer behind the first part of a text. -/
def Lexer.standing (front rest : List Char) : Lexer := ⟨ofText rest, Location.behind front⟩

/-- The walk over one item fails as the walk behind it does, whether the item is skipped or found as
a token. -/
theorem Munch.walk_iff (h : Munch item rest) {error : LexError} {lexer : Lexer} :
    Lexer.walk start (ofText (item ++ rest)) = (.error error, lexer) ↔
      Lexer.walk (start.after item) (ofText rest) = (.error error, lexer) := by
  obtain ⟨c, cs, reading, htext, hcut, hfault⟩ := h.cut
  rw [htext, ofText_cons, hcut]
  cases reading with
  | skipped => exact Iff.rfl
  | token kind =>
    show (((Lexer.walk _ _).1.map _, (Lexer.walk _ _).2) = _) ↔ _
    simp only [Prod.ext_iff, Result.map_eq_error_iff]
  | fault cause => exact absurd rfl (hfault cause)

/-- Whatever is read without an error, the walk fails as it does behind it. -/
theorem Munches.walk_iff (h : Munches front rest) {error : LexError} {lexer : Lexer} :
    Lexer.walk start (ofText (front ++ rest)) = (.error error, lexer) ↔
      Lexer.walk (start.after front) (ofText rest) = (.error error, lexer) := by
  induction h generalizing start with
  | nil => exact Iff.rfl
  | item hitem _ ih => rw [List.append_assoc, hitem.walk_iff, ih, Location.after_append]

/-- What a call comes to at the place where the text halts: an error at that place, about a stray
character, which the lexer has then passed, or about a comment that takes all the rest. -/
def FailsAt (front rest : List Char) (outcome : Except LexError (List Token) × Lexer) : Prop :=
  ∃ error lexer, outcome = (.error error, lexer) ∧ error.location = Location.behind front ∧
    ((∃ c cs, rest = c :: cs ∧ Stray c ∧
        error.cause.describe = "Unexpected character: '" ++ c.toString ++ "'" ∧
        lexer = Lexer.standing (front ++ [c]) cs) ∨
      ∃ body, rest = '/' :: '*' :: body ∧ ¬ ['*', '/'] <:+: body ∧
        error.cause.describe = "Unterminated block comment" ∧
        lexer = Lexer.standing (front ++ rest) [])

/-- At a stray character the walk fails, and the lexer stands behind that character. -/
theorem walk_of_stray (hstray : Stray c) (front cs : List Char) :
    Lexer.walk (Location.behind front) (ofText (c :: cs)) =
      (.error ⟨.unexpectedChar c, Location.behind front⟩, Lexer.standing (front ++ [c]) cs) := by
  rw [ofText_cons, cut_of_stray hstray, Lexer.standing, ← Location.after_behind]
  rfl

/-- At a comment that is never closed the walk fails, and nothing is left to read. -/
theorem walk_of_open {body : List Char} (hopen : ¬ ['*', '/'] <:+: body) (front : List Char) :
    Lexer.walk (Location.behind front) (ofText ('/' :: '*' :: body)) =
      (.error ⟨.unterminatedComment, Location.behind front⟩,
        Lexer.standing (front ++ '/' :: '*' :: body) []) := by
  rw [ofText_cons, cut_of_open hopen, Lexer.standing, ← Location.after_behind, ofText_nil]
  rfl

/-- Wherever a text halts, the walk fails there and says why. -/
theorem Halts.failsAt (h : Halts rest) (front : List Char) :
    FailsAt front rest (Lexer.walk (Location.behind front) (ofText rest)) := by
  rcases h.cases with ⟨c, cs, rfl, hstray⟩ | ⟨body, rfl, hopen⟩
  · exact ⟨_, _, walk_of_stray hstray front cs, rfl, .inl ⟨c, cs, rfl, hstray, rfl, rfl⟩⟩
  · exact ⟨_, _, walk_of_open hopen front, rfl, .inr ⟨body, rfl, hopen, rfl, rfl⟩⟩

/-- A call fails as the walk behind a reading does. -/
theorem Munches.tokenize_eq {source : String} (htext : source.toList = front ++ rest)
    (h : Munches front rest) {error : LexError} {lexer : Lexer}
    (hwalk : Lexer.walk (Location.behind front) (ofText rest) = (.error error, lexer)) :
    (Lexer.ofSource source).tokenize = (.error error, lexer) := by
  rw [Lexer.tokenize, Lexer.ofSource, htext]
  rw [← List.nil_append front, ← Location.after_behind] at hwalk
  exact h.walk_iff.2 hwalk

theorem tokenize_ofList (text : List Char) :
    tokenize (String.ofList text) = (Lexer.walk {} (ofText text)).1 := by
  simp [tokenize, Lexer.ofSource, Lexer.tokenize]

/-- A text that is read to its end is read without an error. -/
theorem Munches.isOk (h : Munches front []) :
    ∃ tokens, tokenize (String.ofList front) = .ok tokens := by
  rw [tokenize_ofList]
  cases hresult : Lexer.walk {} (ofText front) with
  | mk result lexer =>
    cases result with
    | ok tokens => exact ⟨tokens, rfl⟩
    | error error =>
      rw [← front.append_nil, h.walk_iff, ofText_nil] at hresult
      cases hresult

/-- A call that fails has come to a place where the text halts. -/
theorem exists_halts_of_error {source : String} {error : LexError}
    (h : tokenize source = .error error) :
    ∃ front rest, source.toList = front ++ rest ∧ Munches front rest ∧ Halts rest := by
  obtain ⟨front, rest, htext, hread, rfl | hhalts⟩ := Munches.exists_munches source.toList
  · rw [List.append_nil] at htext
    obtain ⟨tokens, hok⟩ := hread.isOk
    rw [← htext, String.ofList_toList, h] at hok
    cases hok
  · exact ⟨front, rest, htext, hread, hhalts⟩

/-! ## What an error can say -/

namespace Lexer

/-- An error of a call is a fault that was pending, and the lexer keeps what is pending behind
it. -/
theorem walk_pending (start : Location) (lexemes : List Lexeme) :
    (∀ lexeme ∈ (walk start lexemes).2.pending, lexeme ∈ lexemes) ∧
      ∀ error, (walk start lexemes).1 = .error error →
        ∃ lexeme ∈ lexemes, lexeme.reading = .fault error.cause := by
  induction lexemes generalizing start with
  | nil => exact ⟨fun lexeme hlexeme => hlexeme, fun error herror => nomatch herror⟩
  | cons lexeme later ih =>
    obtain ⟨hpending, hfault⟩ := ih (start.after lexeme.text)
    have hlater : (∀ other ∈ (walk (start.after lexeme.text) later).2.pending,
        other ∈ lexeme :: later) :=
      fun other hother => List.mem_cons_of_mem _ (hpending other hother)
    rw [walk]
    cases hreading : lexeme.reading with
    | skipped =>
      refine ⟨hlater, fun error herror => ?_⟩
      obtain ⟨found, hfound, hcause⟩ := hfault error herror
      exact ⟨found, List.mem_cons_of_mem _ hfound, hcause⟩
    | token kind =>
      refine ⟨hlater, fun error herror => ?_⟩
      obtain ⟨found, hfound, hcause⟩ := hfault error (Result.map_eq_error_iff.1 herror)
      exact ⟨found, List.mem_cons_of_mem _ hfound, hcause⟩
    | fault cause =>
      refine ⟨fun other hother => List.mem_cons_of_mem _ hother, fun error herror => ?_⟩
      obtain rfl := Except.error.inj herror
      exact ⟨lexeme, List.mem_cons_self, hreading⟩

/-- Every error of a session is a fault that was pending at its start. -/
theorem session_error {calls : Nat} {lexer : Lexer} {error : LexError}
    (h : .error error ∈ lexer.session calls) :
    ∃ lexeme ∈ lexer.pending, lexeme.reading = .fault error.cause := by
  induction calls generalizing lexer with
  | zero => cases h
  | succ calls ih =>
    obtain ⟨hpending, hfault⟩ := walk_pending lexer.location lexer.pending
    rcases List.mem_cons.1 h with hfirst | hlater
    · exact hfault error hfirst.symm
    · obtain ⟨lexeme, hlexeme, hcause⟩ := ih hlater
      exact ⟨lexeme, hpending lexeme hlexeme, hcause⟩

end Lexer

/-- The lexemes of a text are at fault in two ways only. -/
theorem Lexeme.cause_of_mem_ofText {text : List Char} {lexeme : Lexeme} {cause : LexError.Cause}
    (h : lexeme ∈ ofText text) (hcause : lexeme.reading = .fault cause) :
    (∃ c, cause = .unexpectedChar c) ∨ cause = .unterminatedComment := by
  fun_induction ofText text with
  | case1 => cases h
  | case2 c cs ih =>
    rcases List.mem_cons.1 h with rfl | hlater
    · have hfits := Lexeme.cut_fits c cs
      unfold Lexeme.Fits at hfits
      rw [hcause] at hfits
      cases cause with
      | unexpectedChar d => exact .inl ⟨d, rfl⟩
      | unterminatedComment => exact .inr rfl
      | other text => exact hfits.elim
    · exact ih hlater

/-- **Where and how the lexer fails.** It fails exactly on the texts that halt before their end: at
the place where they halt, about what stands there, and never within an item that is read before.
What comes before that place is a text without an error, and no call ever complains about the end of
the text. -/
theorem tokenize_error_iff_halts (source : String) :
    (∀ rest, Halts rest ↔ (∃ c cs, rest = c :: cs ∧ Stray c) ∨
      ∃ body, rest = '/' :: '*' :: body ∧ ¬ ['*', '/'] <:+: body) ∧
    ((∃ error, tokenize source = .error error) ↔
      ∃ front rest, source.toList = front ++ rest ∧ Munches front rest ∧ Halts rest) ∧
    (∀ front rest, source.toList = front ++ rest → Munches front rest → Halts rest →
      FailsAt front rest (Lexer.ofSource source).tokenize ∧
      (∃ tokens, tokenize (String.ofList front) = .ok tokens) ∧
      ∀ before item behind, source.toList = before ++ item ++ behind →
        Munches before (item ++ behind) → Munch item behind →
        before.length + item.length ≤ front.length) ∧
    ∀ calls error, .error error ∈ (Lexer.ofSource source).session calls →
      error.cause.describe ≠ "Unexpected end of file" := by
  have hfails {front rest : List Char} (htext : source.toList = front ++ rest)
      (hread : Munches front rest) (hhalts : Halts rest) :
      FailsAt front rest (Lexer.ofSource source).tokenize := by
    obtain ⟨error, lexer, houtcome, hkind⟩ := hhalts.failsAt front
    exact ⟨error, lexer, hread.tokenize_eq htext houtcome, hkind⟩
  refine ⟨fun _ => halts_iff, ⟨?_, ?_⟩, ?_, ?_⟩
  · rintro ⟨error, herror⟩
    exact exists_halts_of_error herror
  · rintro ⟨front, rest, htext, hread, hhalts⟩
    obtain ⟨error, lexer, houtcome, -⟩ := hfails htext hread hhalts
    exact ⟨error, congrArg Prod.fst houtcome⟩
  · -- nothing is read on from a place where the text halts, so no reading gets further
    intro front rest htext hread hhalts
    refine ⟨hfails htext hread hhalts, (hread.of_halts hhalts.1).isOk, ?_⟩
    intro before item behind htext' hread' hitem
    rw [← List.length_append]
    exact (hread'.append hitem).length_le hread hhalts (htext'.symm.trans htext)
  · -- of the lexemes only stray characters and open comments are faults, and neither is so worded
    intro calls error herror
    obtain ⟨lexeme, hlexeme, hcause⟩ := Lexer.session_error herror
    rcases Lexeme.cause_of_mem_ofText hlexeme hcause with ⟨c, hchar⟩ | hopen
    · have hdescribe : error.cause.describe = "Unexpected character: '" ++ c.toString ++ "'" :=
        congrArg LexError.Cause.describe hchar
      rw [hdescribe, Ne, ← String.toList_inj, String.toList_append, String.toList_append]
      simp
    · rw [hopen]
      decide

end MiniC
