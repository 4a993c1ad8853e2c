import MiniC.Proofs.Token.Faults

/-!
# A text that is read line by line

Cut a text at the end of a line where nothing is left open: the lines above are read without an
error when they are on their own. Then the lines below are read as if they were a text of their own,
only further down. Tokens and errors alike keep their columns and are moved down by the lines above.

## The crux

At the seam a newline comes behind a text that used to end there. A comment or a directive that the
end of the text has cut off takes the newline in, and everything else ends before it, so that the
newline is a blank. In either case what follows begins a line, and nothing above reaches into it
(`Munches.seam`).

## The architecture

* **`Location.down`** moves a place down by some lines, and **`walk_down`** says that a walk which
  starts further down finds everything further down.
* **`walk_append`** is the walk along two rows of lexemes, one behind the other.
* **`Munch.seam`** is the step at one item and **`Munches.seam`** the cut of the whole text.
* **`tokenize_append_newline`** is the result.
-/

namespace MiniC

open Lexeme (ofText ofText_cons ofText_nil)

variable {c : Char} {cs item front rest text : List Char} {start : Location} {lines : Nat}
  {tokens : List Token}

/-! ## Further down -/

/-- The place in the same column, a number of lines further down. -/
def Location.down (lines : Nat) (l : Location) : Location := { l with line := l.line + lines }

def Token.down (lines : Nat) (token : Token) : Token :=
  { token with location := token.location.down lines }

def LexError.down (lines : Nat) (error : LexError) : LexError :=
  { error with location := error.location.down lines }

namespace Location

theorem advance_down (l : Location) (lines : Nat) (c : Char) :
    (l.down lines).advance c = (l.advance c).down lines := by
  by_cases hc : c = '\n'
  · subst hc
    simp only [advance_newline, down, Nat.add_right_comm]
  · simp only [advance_of_ne hc, down]

/-- So does the walk over a text. -/
theorem after_down (l : Location) (lines : Nat) (text : List Char) :
    (l.down lines).after text = (l.after text).down lines := by
  induction text generalizing l with
  | nil => rfl
  | cons c text ih => rw [after_cons, after_cons, advance_down, ih]

/-- Behind a newline a text starts again, below all lines before it. -/
theorem behind_newline (text : List Char) :
    behind (text ++ ['\n']) = down (1 + text.count '\n') {} := by
  rw [behind_append_singleton, advance_newline, behind, down, Nat.add_comm]

end Location

namespace Lexer

/-- **A walk that starts further down finds everything further down.** -/
theorem walk_down (start : Location) (lines : Nat) (lexemes : List Lexeme) :
    (walk (start.down lines) lexemes).1 =
      match (walk start lexemes).1 with
      | .ok tokens => .ok (tokens.map (Token.down lines))
      | .error error => .error (error.down lines) := by
  induction lexemes generalizing start with
  | nil => rfl
  | cons lexeme later ih =>
    have hlater := ih (start.after lexeme.text)
    rw [← Location.after_down] at hlater
    rw [walk, walk]
    cases lexeme.reading with
    | skipped => exact hlater
    | fault cause => rfl
    | token kind =>
      dsimp only
      rw [hlater]
      cases (walk (start.after lexeme.text) later).1 <;> rfl

/-! ## One row of lexemes behind another -/

/-- A walk along two rows gets through the first one, and goes on behind the texts of it. -/
theorem walk_append (start : Location) (lexemes later : List Lexeme) :
    (walk start (lexemes ++ later)).1 = (walk start lexemes).1.bind fun tokens =>
      (walk (start.after (lexemes.map Lexeme.text).flatten) later).1.map (tokens ++ ·) := by
  induction lexemes generalizing start with
  | nil =>
    show (walk start later).1 = (walk start later).1.map ([] ++ ·)
    cases (walk start later).1 <;> rfl
  | cons lexeme lexemes ih =>
    have hlater := ih (start.after lexeme.text)
    rw [← Location.after_append] at hlater
    rw [List.cons_append, walk, walk, List.map_cons, List.flatten_cons]
    cases lexeme.reading with
    | skipped => exact hlater
    | fault cause => rfl
    | token kind =>
      dsimp only
      rw [hlater]
      -- the first token stands in front of whatever else is found
      cases (walk (start.after lexeme.text) lexemes).1 with
      | error error => rfl
      | ok tokens => cases (walk _ later).1 <;> rfl

/-- What is skipped at the end of a row makes no difference to what is found in it. -/
theorem walk_append_skip (start : Location) (lexemes : List Lexeme) (text : List Char) :
    (walk start (lexemes ++ [⟨.skipped, text⟩])).1 = (walk start lexemes).1 := by
  rw [walk_append]
  cases (walk start lexemes).1 with
  | error error => rfl
  | ok tokens => exact congrArg Except.ok (List.append_nil tokens)

end Lexer

/-! ## The seam -/

/-- If one lexeme is known, the text is cut up into it and what the rest is cut up into. -/
theorem Lexeme.ofText_of_cut {lexeme : Lexeme} (htext : text = c :: cs)
    (hcut : cut c cs = (lexeme, rest)) : ofText text = lexeme :: ofText rest := by
  rw [htext, ofText_cons, hcut]

/-- No token runs into a newline. -/
theorem Token.Kind.not_runsInto_newline (kind : Token.Kind) : ¬ kind.RunsInto '\n' := by
  rw [runsInto_opensGap (by unfold OpensGap; decide)]
  exact fun hslash => absurd hslash.2 (by decide)

/-- An item is the same lexeme with a newline behind the rest of the text as without it; only a line
that the end of the text has cut off takes the newline in. -/
theorem Munch.seam (h : Munch item rest) (below : List Char) :
    (∃ lexeme, ofText (item ++ rest) = lexeme :: ofText rest ∧
      ofText (item ++ (rest ++ '\n' :: below)) = lexeme :: ofText (rest ++ '\n' :: below)) ∨
    (rest = [] ∧ ofText item = [⟨.skipped, item⟩] ∧
      ofText (item ++ '\n' :: below) = ⟨.skipped, item ++ ['\n']⟩ :: ofText below) := by
  cases h with
  | @blank c _ hblank =>
    have hcut := Lexeme.cut_blank (Lexeme.isBlank_iff.2 hblank)
    exact .inl ⟨_, Lexeme.ofText_of_cut rfl (hcut _), Lexeme.ofText_of_cut rfl (hcut _)⟩
  | @lineComment body _ hbody =>
    have hcut := Lexeme.cut_lineComment hbody
    exact .inl ⟨_, Lexeme.ofText_of_cut (by simp) (hcut _), Lexeme.ofText_of_cut (by simp) (hcut _)⟩
  | @directive body _ hbody =>
    have hcut := Lexeme.cut_directive hbody
    exact .inl ⟨_, Lexeme.ofText_of_cut (by simp) (hcut _), Lexeme.ofText_of_cut (by simp) (hcut _)⟩
  | @blockComment body _ hbody =>
    have hcut := Lexeme.cut_blockComment hbody
    exact .inl ⟨_, Lexeme.ofText_of_cut (by simp) (hcut _), Lexeme.ofText_of_cut (by simp) (hcut _)⟩
  | @token token _ htoken hend =>
    -- what comes next is what came next before, or the newline
    have hend' : ∀ c ∈ (rest ++ '\n' :: below).head?, ¬ token.kind.RunsInto c := by
      intro c hc
      cases rest with
      | nil =>
        obtain rfl : '\n' = c := Option.some.inj hc
        exact token.kind.not_runsInto_newline
      | cons d rest => exact hend c hc
    obtain ⟨c, cs, htext, hcut⟩ := Lexeme.cut_of_spelled htoken.spelled hend
    obtain ⟨c', cs', htext', hcut'⟩ := Lexeme.cut_of_spelled htoken.spelled hend'
    exact .inl ⟨_, Lexeme.ofText_of_cut htext hcut, Lexeme.ofText_of_cut htext' hcut'⟩
  | @lastLineComment body hbody =>
    have hlast := Lexeme.ofText_of_cut rfl (Lexeme.cut_lastLineComment hbody)
    rw [ofText_nil] at hlast
    exact .inr ⟨rfl, hlast, Lexeme.ofText_of_cut rfl (Lexeme.cut_lineComment hbody below)⟩
  | @lastDirective body hbody =>
    have hlast := Lexeme.ofText_of_cut rfl (Lexeme.cut_lastDirective hbody)
    rw [ofText_nil] at hlast
    exact .inr ⟨rfl, hlast, Lexeme.ofText_of_cut rfl (Lexeme.cut_directive hbody below)⟩

/-- **The seam.** What is read to its end is cut into the same lexemes with a newline behind it, up
to a last stretch that is skipped and ends with the newline. -/
theorem Munches.seam (h : Munches front []) (below : List Char) :
    ∃ lexemes skip, (ofText front = lexemes ∧ skip = [] ∨
        ofText front = lexemes ++ [⟨.skipped, skip⟩]) ∧
      ofText (front ++ '\n' :: below) = lexemes ++ ⟨.skipped, skip ++ ['\n']⟩ :: ofText below := by
  generalize hend : ([] : List Char) = rest at h
  induction h with
  | nil =>
    subst hend
    refine ⟨[], [], .inl ⟨ofText_nil, rfl⟩, ?_⟩
    exact Lexeme.ofText_of_cut rfl (Lexeme.cut_blank rfl below)
  | @item item front rest hitem _ ih =>
    subst hend
    rw [List.append_nil] at hitem
    obtain ⟨lexeme, halone, hseam⟩ | ⟨rfl, halone, hseam⟩ := hitem.seam below
    · obtain ⟨lexemes, skip, hfront, hbelow⟩ := ih rfl
      refine ⟨lexeme :: lexemes, skip, ?_, ?_⟩
      · rcases hfront with ⟨hfront, rfl⟩ | hfront
        · exact .inl ⟨by rw [halone, hfront], rfl⟩
        · exact .inr (by rw [halone, hfront, List.cons_append])
      · rw [List.append_assoc, hseam, hbelow, List.cons_append]
    · rw [List.append_nil]
      exact ⟨[], item, .inr halone, hseam⟩

/-! ## The main theorem -/

/-- A text without a fault is read to its end. -/
theorem munches_of_tokenize {source : String} (h : tokenize source = .ok tokens) :
    Munches source.toList [] := by
  obtain ⟨front, rest, htext, hread, rfl | hhalts⟩ := Munches.exists_munches source.toList
  · rwa [htext, List.append_nil]
  · obtain ⟨error, lexer, hwalk, -⟩ := hhalts.failsAt front
    have hfails := congrArg Prod.fst (hread.tokenize_eq htext hwalk)
    rw [show (Lexer.ofSource source).tokenize.1 = .ok tokens from h] at hfails
    cases hfails

/-- **Below a line that leaves nothing open a text is read as on its own.** If the lines above are
read without an error, then the tokens of the whole are theirs and, further down in the same
columns, those of the lines below; and if the lines below are not read, then the whole fails for the
same cause, further down in the same column. -/
theorem tokenize_append_newline {above : String} (h : tokenize above = .ok tokens)
    (below : String) :
    let lines := 1 + above.toList.count '\n'
    tokenize (above ++ "\n" ++ below) =
      match tokenize below with
      | .ok more => .ok (tokens ++ more.map (Token.down lines))
      | .error error => .error (error.down lines) := by
  intro lines
  obtain ⟨lexemes, skip, habove, hwhole⟩ := (munches_of_tokenize h).seam below.toList
  have htext : (above ++ "\n" ++ below).toList = above.toList ++ '\n' :: below.toList := by simp
  -- the lines above come to their tokens, whether or not the last of them was cut off
  have htokens : (Lexer.walk {} lexemes).1 = .ok tokens := by
    have hread : (Lexer.walk {} (ofText above.toList)).1 = .ok tokens := h
    rcases habove with ⟨habove, -⟩ | habove
    · rwa [habove] at hread
    · rwa [habove, Lexer.walk_append_skip] at hread
  have hskip : (lexemes.map Lexeme.text).flatten ++ skip = above.toList := by
    rw [← Lexeme.flatten_ofText above.toList]
    rcases habove with ⟨habove, rfl⟩ | habove <;> simp [habove]
  have hplace : (Location.after {} (lexemes.map Lexeme.text).flatten).after (skip ++ ['\n']) =
      Location.down lines {} := by
    rw [← Location.behind_newline, ← Location.after_append, ← List.append_assoc, hskip]
    exact Location.after_behind [] _
  have hbelow : (Lexer.walk (Location.down lines {}) (ofText below.toList)).1 =
      match tokenize below with
      | .ok more => .ok (more.map (Token.down lines))
      | .error error => .error (error.down lines) := Lexer.walk_down {} lines _
  calc tokenize (above ++ "\n" ++ below)
    _ = (Lexer.walk {} (lexemes ++ ⟨.skipped, skip ++ ['\n']⟩ :: ofText below.toList)).1 := by
      rw [tokenize, Lexer.ofSource, htext, hwhole]
      rfl
    _ = (Lexer.walk (Location.down lines {}) (ofText below.toList)).1.map (tokens ++ ·) := by
      rw [Lexer.walk_append, htokens, ← hplace]
      rfl
    _ = _ := by
      rw [hbelow]
      cases tokenize below <;> rfl

/-- Below a line comment that the end of the text has cut off. -/
theorem tokenize_append_newline_comment :
    let x9 : List Token := [⟨.identifier, "x", ⟨1, 1⟩⟩, ⟨.intLiteral, "9", ⟨2, 1⟩⟩]
    tokenize "x\n9//" = .ok x9 ∧
    tokenize ("x\n9//" ++ "\n" ++ "*/") =
      .ok (x9 ++ [⟨.star, "*", ⟨3, 1⟩⟩, ⟨.slash, "/", ⟨3, 2⟩⟩]) ∧
    tokenize ("x\n9//" ++ "\n" ++ " /*") = .error ⟨.unterminatedComment, ⟨3, 2⟩⟩ := by
  intro x9
  have habove : tokenize "x\n9//" = .ok x9 := by
    have hlexemes : ofText "x\n9//".toList = [⟨.token .identifier, ['x']⟩, ⟨.skipped, ['\n']⟩,
        ⟨.token .intLiteral, ['9']⟩, ⟨.skipped, ['/', '/']⟩] := by
      simp [ofText_cons, Lexeme.cut, Lexeme.cutSlash, Lexeme.throughNewline, Lexeme.startsWord,
        Lexeme.continuesWord, Lexeme.wordKind]
    rw [tokenize, Lexer.ofSource, hlexemes]
    rfl
  have hsigns : tokenize "*/" = .ok [⟨.star, "*", ⟨1, 1⟩⟩, ⟨.slash, "/", ⟨1, 2⟩⟩] := by
    have hlexemes : ofText "*/".toList = [⟨.token .star, ['*']⟩, ⟨.token .slash, ['/']⟩] := by
      simp [ofText_cons, Lexeme.cut, Lexeme.cutSlash, Lexeme.startsWord, Lexeme.punctuation?]
    rw [tokenize, Lexer.ofSource, hlexemes]
    rfl
  have hopen : tokenize " /*" = .error ⟨.unterminatedComment, ⟨1, 2⟩⟩ := by
    have hlexemes : ofText " /*".toList =
        [⟨.skipped, [' ']⟩, ⟨.fault .unterminatedComment, ['/', '*']⟩] := by
      simp [ofText_cons, Lexeme.cut, Lexeme.cutSlash, Lexeme.throughClose?]
    rw [tokenize, Lexer.ofSource, hlexemes]
    rfl
  refine ⟨habove, ?_, ?_⟩
  · rw [tokenize_append_newline habove, hsigns]
    rfl
  · rw [tokenize_append_newline habove, hopen]
    rfl

end MiniC
