import MiniC.Proofs.Token.Juncture

/-!
# What a token list tells about its text

A text that is read without a fault is gaps and token texts in turn, with nothing left over and
nothing made up. So each token can be found again: its place counts the lines and the columns in
front of its text, and the character behind its text is none that it would have swallowed.

* **`LaidOut.exists_layout`** names the gaps.
* **`LaidOut.stands`** finds one token, **`LaidOut.ordered`** compares the places of two.
-/

namespace MiniC

variable {start place : Location} {before text : List Char} {tokens : List Token} {token : Token}

namespace LaidOut

/-- The gaps of a text that is laid out make it a `Layout` of the same tokens: the places need not
be told, for they are counted. -/
theorem exists_layout (h : LaidOut start text tokens) (hstart : start = Location.behind before) :
    ∃ layout : Layout, layout.text = text ∧ layout.tokensBehind before = tokens := by
  induction h generalizing before with
  | @last start gap hgap => exact ⟨.last gap hgap, rfl, rfl⟩
  | @token start gap rest token tokens hgap htoken hplace _ _ ih =>
    rw [hstart, Location.after_behind] at hplace
    have hbehind : token.location.after token.text.toList =
        Location.behind (before ++ gap ++ token.text.toList) := by
      rw [hplace, Location.after_behind]
    obtain ⟨layout, htext, htokens⟩ := ih hbehind
    -- the same token without its place is a word of the layout
    refine ⟨.word gap hgap ⟨token.kind, token.text, htoken⟩ layout, ?_, ?_⟩
    · rw [Layout.text, htext]
    · rw [Layout.tokensBehind, htokens, Word.tokenAt, ← hplace]

/-- Every token fits its kind and stands somewhere in the text, at the place that counts what is in
front of it, and does not run into what is behind it. -/
theorem stands (h : LaidOut start text tokens) (hstart : start = Location.behind before) :
    ∀ token ∈ tokens, token.WellFormed ∧ ∃ front behind,
      before ++ text = front ++ token.text.toList ++ behind ∧
      token.location = Location.behind front ∧
      ∀ c ∈ behind.head?, ¬ token.kind.RunsInto c := by
  induction h generalizing before with
  | last => exact fun token htoken => nomatch htoken
  | @token start gap rest token tokens _ htoken hplace hend _ ih =>
    rw [hstart, Location.after_behind] at hplace
    have hbehind : token.location.after token.text.toList =
        Location.behind (before ++ gap ++ token.text.toList) := by
      rw [hplace, Location.after_behind]
    intro other hother
    rcases List.mem_cons.1 hother with rfl | hlater
    · exact ⟨htoken, before ++ gap, rest, by simp, hplace, hend⟩
    · obtain ⟨hwellFormed, front, behind, htext, hfront, hother⟩ := ih hbehind other hlater
      exact ⟨hwellFormed, front, behind, by rw [← htext]; simp, hfront, hother⟩

/-! ## Places in order -/

theorem text_ne_nil (h : token.WellFormed) : token.text.toList ≠ [] := by
  obtain ⟨c, cs, hchars⟩ := spelled_eq_cons h.spelled
  rw [hchars]
  exact List.cons_ne_nil c cs

/-- A place that is not behind the start of a text is before all tokens of the text. -/
theorem before_of_mem (h : LaidOut start text tokens)
    (hplace : place.Before start) : ∀ token ∈ tokens, place.Before token.location := by
  induction h with
  | last => exact fun token htoken => nomatch htoken
  | @token start gap rest token tokens _ htoken hlocation _ _ ih =>
    have hfirst : place.Before token.location := by
      rw [hlocation]
      by_cases hgap : gap = []
      · rw [hgap]
        exact hplace
      · exact hplace.trans (Location.before_after hgap start)
    have hbehind := Location.before_after (text_ne_nil htoken) token.location
    intro other hother
    rcases List.mem_cons.1 hother with rfl | hlater
    · exact hfirst
    · exact ih (hfirst.trans hbehind) other hlater

/-- Each token takes at least one character, so the next one stands at a later place. -/
theorem ordered (h : LaidOut start text tokens) :
    tokens.Pairwise fun token later => token.location.Before later.location := by
  induction h with
  | last => exact .nil
  | @token start gap rest token tokens _ htoken _ _ hrest ih =>
    -- behind a token's text is a later place already, and no token stands before that
    have hbehind := Location.before_after (text_ne_nil htoken) token.location
    exact .cons (hrest.before_of_mem hbehind) ih

end LaidOut

/-- **Nothing is lost and nothing is made up.** A text without a fault is its gaps and the texts of
its tokens in turn; the tokens stand where they say, one behind the other, are well formed, and end
where their texts end. -/
theorem tokenize_faithful {source : String} (h : tokenize source = .ok tokens) :
    (∃ layout : Layout, layout.text = source.toList ∧ layout.tokensBehind [] = tokens) ∧
    (tokens.Pairwise fun token later => token.location.Before later.location) ∧
    ∀ token ∈ tokens, token.WellFormed ∧ ∃ front behind,
      source.toList = front ++ token.text.toList ++ behind ∧
      token.location = Location.behind front ∧
      (token.kind = .intLiteral → ∀ c ∈ behind.head?, c.isDigit = false) ∧
      (token.kind = .identifier ∨ token.kind = .intKeyword ∨ token.kind = .returnKeyword →
        ∀ c ∈ behind.head?, c.isAlphanum = false ∧ c ≠ '_') := by
  have hlaid : LaidOut (Location.behind []) source.toList tokens := by
    rw [Location.behind_nil, ← Lexer.walk_eq_ok_iff]
    exact h
  refine ⟨hlaid.exists_layout rfl, hlaid.ordered, fun token htoken => ?_⟩
  obtain ⟨hwellFormed, front, behind, htext, hplace, hend⟩ := hlaid.stands rfl token htoken
  refine ⟨hwellFormed, front, behind, htext, hplace, fun hkind c hc => ?_, fun hkind c hc => ?_⟩
  · have hrun := hend c hc
    rw [hkind] at hrun
    exact Bool.eq_false_iff.2 hrun
  · have hrun : ¬ (c.isAlphanum = true ∨ c = '_') := by
      have hrun := hend c hc
      rcases hkind with hkind | hkind | hkind <;>
        · rw [hkind] at hrun
          exact hrun
    rw [not_or, Bool.not_eq_true] at hrun
    exact hrun

/-- A comment over a line break, two words, a sign with a number behind it, and a comment that the
text cuts off. -/
theorem tokenize_faithful_commented :
    tokenize "int/*\n*/ x1\n+007//" = .ok [⟨.intKeyword, "int", ⟨1, 1⟩⟩,
      ⟨.identifier, "x1", ⟨2, 4⟩⟩, ⟨.plus, "+", ⟨3, 1⟩⟩, ⟨.intLiteral, "007", ⟨3, 2⟩⟩] ∧
    ∃ layout : Layout, layout.text = "int/*\n*/ x1\n+007//".toList ∧
      layout.tokensBehind [] = [⟨.intKeyword, "int", ⟨1, 1⟩⟩,
        ⟨.identifier, "x1", ⟨2, 4⟩⟩, ⟨.plus, "+", ⟨3, 1⟩⟩, ⟨.intLiteral, "007", ⟨3, 2⟩⟩] := by
  have hlexemes : Lexeme.ofText "int/*\n*/ x1\n+007//".toList =
      [⟨.token .intKeyword, ['i', 'n', 't']⟩, ⟨.skipped, ['/', '*', '\n', '*', '/']⟩,
        ⟨.skipped, [' ']⟩, ⟨.token .identifier, ['x', '1']⟩, ⟨.skipped, ['\n']⟩,
        ⟨.token .plus, ['+']⟩, ⟨.token .intLiteral, ['0', '0', '7']⟩, ⟨.skipped, ['/', '/']⟩] := by
    simp [Lexeme.ofText_cons, Lexeme.cut, Lexeme.cutSlash, Lexeme.throughNewline,
      Lexeme.throughClose?, Lexeme.startsWord, Lexeme.continuesWord, Lexeme.wordKind,
      Lexeme.punctuation?]
  have hread : tokenize "int/*\n*/ x1\n+007//" = .ok [⟨.intKeyword, "int", ⟨1, 1⟩⟩,
      ⟨.identifier, "x1", ⟨2, 4⟩⟩, ⟨.plus, "+", ⟨3, 1⟩⟩, ⟨.intLiteral, "007", ⟨3, 2⟩⟩] := by
    rw [tokenize, Lexer.ofSource, hlexemes]
    rfl
  exact ⟨hread, (tokenize_faithful hread).1⟩

end MiniC
