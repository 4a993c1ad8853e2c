import MiniC.Parse.Parser
import MiniC.Proofs.Parse.Accepting

/-!
# What the rule for programs reads

The rule for programs puts a header and closing tokens around an expression, and the closing brace
ends the program whatever stands behind it. So unlike for a phrase nothing has to be said about
the next token: the rule succeeds on the tokens of a derived program and on no others.

* **`program_eq_ok`** says what success means, **`run_program`** when the rule succeeds.
* **`parseProgram_ok_iff`** is both, for the first call of a parser.
-/

namespace MiniC

namespace Rule

open Grammar (Derives DerivesProgram)

variable {α : Type} {dialect : Dialect} {cap : Option Nat} {s t u : State} {token : Token}
  {tokens rest : List Token} {frames reached : Nat}

/-! ## Success -/

/-- An expected token makes a stretch one token longer. -/
theorem State.Past.expect {kind : Token.Kind} {expected : Expectation}
    (hpast : s.Past tokens reached t) (hrun : (expect kind expected).run t = .ok token u) :
    token.kind = kind ∧ s.Past (tokens ++ [token]) reached u := by
  obtain ⟨hpeek, hkind, rfl⟩ := expect_eq_ok hrun
  have hall := hpast.trans (State.past_advance hpeek)
  rw [Nat.max_zero] at hall
  exact ⟨hkind, hall⟩

/-- **What success of the rule for statements means**: a keyword, a derived expression and a
semicolon were consumed. -/
theorem statement_eq_ok {statement : Statement}
    (hrun : (Rule.statement dialect.operators cap).run s = .ok statement t) :
    ∃ keyword tokens semicolon frames, keyword.kind = .returnKeyword ∧
      Derives dialect .expression tokens statement.returned frames ∧
      semicolon.kind = .semicolon ∧ statement.location = keyword.location ∧
      s.Past (keyword :: tokens ++ [semicolon]) (s.depth + frames) t ∧
      ∀ limit ∈ cap, s.depth + frames ≤ limit := by
  obtain ⟨keyword, s₁, hkeyword, hrun₁⟩ := bind_eq_ok hrun
  obtain ⟨e, s₂, hexpression, hrun₂⟩ := bind_eq_ok hrun₁
  obtain ⟨semicolon, s₃, hsemicolon, hpure⟩ := bind_eq_ok hrun₂
  obtain ⟨rfl, rfl⟩ := Outcome.ok.inj hpure
  obtain ⟨hkind, hpast⟩ := (State.Past.refl s).expect hkeyword
  have hdepth : s₁.depth = s.depth := hpast.depth_eq
  -- where the expression ends does not matter here: the semicolon was looked for and found
  obtain ⟨⟨tokens, frames, hderives, hpast', hcap⟩, -⟩ :=
    hasRead dialect .expression hexpression
  obtain ⟨hkind', hall⟩ := (hpast.trans hpast').expect hsemicolon
  rw [Nat.zero_max, hdepth] at hall
  rw [hdepth] at hcap
  exact ⟨keyword, tokens, semicolon, frames, hkind, hderives, hkind', rfl, hall, hcap⟩

/-- The same for functions, where the tokens are those of a derived program. -/
theorem function_eq_ok {f : FunctionDefinition}
    (hrun : (function dialect.operators cap).run s = .ok f t) :
    ∃ tokens frames, DerivesProgram dialect tokens ⟨f⟩ frames ∧
      s.Past tokens (s.depth + frames) t ∧ ∀ limit ∈ cap, s.depth + frames ≤ limit := by
  obtain ⟨returnType, s₁, hreturnType, hrun₁⟩ := bind_eq_ok hrun
  obtain ⟨name, s₂, hname, hrun₂⟩ := bind_eq_ok hrun₁
  obtain ⟨openParen, s₃, hopenParen, hrun₃⟩ := bind_eq_ok hrun₂
  obtain ⟨closeParen, s₄, hcloseParen, hrun₄⟩ := bind_eq_ok hrun₃
  obtain ⟨openBrace, s₅, hopenBrace, hrun₅⟩ := bind_eq_ok hrun₄
  obtain ⟨body, s₆, hbody, hrun₆⟩ := bind_eq_ok hrun₅
  obtain ⟨closeBrace, s₇, hcloseBrace, hpure⟩ := bind_eq_ok hrun₆
  obtain ⟨rfl, rfl⟩ := Outcome.ok.inj hpure
  -- the header, token by token
  obtain ⟨hkind₁, hpast₁⟩ := (State.Past.refl s).expect hreturnType
  obtain ⟨hkind₂, hpast₂⟩ := hpast₁.expect hname
  obtain ⟨hkind₃, hpast₃⟩ := hpast₂.expect hopenParen
  obtain ⟨hkind₄, hpast₄⟩ := hpast₃.expect hcloseParen
  obtain ⟨hkind₅, hpast₅⟩ := hpast₄.expect hopenBrace
  have hdepth : s₅.depth = s.depth := hpast₅.depth_eq
  obtain ⟨keyword, tokens, semicolon, frames, hkeyword, hderives, hsemicolon, hlocation,
    hpast₆, hcap⟩ := statement_eq_ok hbody
  obtain ⟨hkind₇, hpast₇⟩ := (hpast₅.trans hpast₆).expect hcloseBrace
  rw [Nat.zero_max, hdepth] at hpast₇
  rw [hdepth] at hcap
  refine ⟨_, frames, ?_, hpast₇, hcap⟩
  obtain ⟨returned, location⟩ := body
  dsimp only at hderives hlocation
  subst hlocation
  have hprogram := DerivesProgram.program hkind₁ hkind₂ hkind₃ hkind₄ hkind₅ hkeyword hderives
    hsemicolon hkind₇
  simpa using hprogram

theorem endOfInput_eq_ok {a : Unit} (hrun : endOfInput.run s = .ok a t) :
    t = s ∧ s.cursor.rest = [] := by
  rw [endOfInput, run_bind, run_peek?] at hrun
  dsimp only at hrun
  cases hpeek : s.cursor.peek? with
  | none =>
    rw [hpeek] at hrun
    obtain ⟨-, rfl⟩ := Outcome.ok.inj hrun
    exact ⟨rfl, List.head?_eq_none_iff.1 hpeek⟩
  | some token =>
    rw [hpeek] at hrun
    cases hrun

/-- **What success of the rule for programs means.** -/
theorem program_eq_ok {strict : Bool} {program : Program}
    (hrun : (Rule.program dialect.operators cap strict).run s = .ok program t) :
    ∃ tokens frames, DerivesProgram dialect tokens program frames ∧
      s.Past tokens (s.depth + frames) t ∧ (∀ limit ∈ cap, s.depth + frames ≤ limit) ∧
      (strict = true → t.cursor.rest = []) := by
  obtain ⟨c, s₁, hcursor, hrun₁⟩ := bind_eq_ok hrun
  obtain ⟨rfl, rfl⟩ := Outcome.ok.inj hcursor
  split at hrun₁
  · cases hrun₁
  · obtain ⟨f, s₂, hfunction, hrun₂⟩ := bind_eq_ok hrun₁
    obtain ⟨tokens, frames, hderives, hpast, hcap⟩ := function_eq_ok hfunction
    cases strict with
    | false =>
      obtain ⟨rfl, rfl⟩ := Outcome.ok.inj hrun₂
      exact ⟨tokens, frames, hderives, hpast, hcap, nofun⟩
    | true =>
      obtain ⟨a, s₃, hend, hpure⟩ := bind_eq_ok hrun₂
      obtain ⟨rfl, rfl⟩ := Outcome.ok.inj hpure
      obtain ⟨rfl, hrest⟩ := endOfInput_eq_ok hend
      exact ⟨tokens, frames, hderives, hpast, hcap, fun _ => hrest⟩

/-! ## When the rule succeeds -/

/-- An expected token that comes next is taken, and the rest of the rule sees what is behind it. -/
theorem run_expect_bind {β : Type} {kind : Token.Kind} {expected : Expectation}
    (hrest : s.cursor.rest = token :: rest) (hkind : token.kind = kind)
    (next : Token → Rule β) :
    (expect kind expected >>= next).run s = (next token).run s.advance := by
  rw [run_bind, run_expect_of_kind (State.peek?_of_rest hrest) hkind]

/-- A keyword, a derived expression and a semicolon are read as a statement. The semicolon ends the
expression. -/
theorem run_statement {keyword semicolon : Token} {e : Expr}
    (hrest : s.cursor.rest = keyword :: (tokens ++ semicolon :: rest))
    (hkeyword : keyword.kind = .returnKeyword)
    (hderives : Derives dialect .expression tokens e frames)
    (hsemicolon : semicolon.kind = .semicolon)
    (hcap : ∀ limit ∈ cap, s.depth + frames ≤ limit) :
    ∃ t, s.Past (keyword :: tokens ++ [semicolon]) (s.depth + frames) t ∧
      (Rule.statement dialect.operators cap).run s = .ok ⟨e, keyword.location⟩ t := by
  have hbehind := State.rest_advance hrest
  obtain ⟨t, hpast, hrun⟩ := run_of_derives hderives hbehind hcap
    (Grammar.Phrase.ends_of_closer (.inr hsemicolon))
  have hbehind' := hpast.rest_eq_of_append hbehind
  have hall := ((State.past_advance (State.peek?_of_rest hrest)).trans hpast).trans
    (State.past_advance (State.peek?_of_rest hbehind'))
  rw [Nat.zero_max, Nat.max_zero] at hall
  refine ⟨t.advance, hall, ?_⟩
  rw [Rule.statement, run_expect_bind hrest hkeyword, run_bind]
  rw [show (expression dialect.operators cap).run s.advance = .ok e t from hrun]
  dsimp only
  rw [run_expect_bind hbehind' hsemicolon]
  rfl

/-- A derived program is read, whatever stands behind its brace. -/
theorem run_function {program : Program} (hderives : DerivesProgram dialect tokens program frames)
    (hrest : s.cursor.rest = tokens ++ rest)
    (hcap : ∀ limit ∈ cap, s.depth + frames ≤ limit) :
    ∃ t, s.Past tokens (s.depth + frames) t ∧
      (function dialect.operators cap).run s = .ok program.function t := by
  obtain ⟨hreturnType, hname, hopenParen, hcloseParen, hopenBrace, hkeyword, hreturned,
    hsemicolon, hcloseBrace⟩ := hderives
  simp only [List.cons_append, List.nil_append, List.append_assoc] at hrest
  have hrest₁ := State.rest_advance hrest
  have hrest₂ := State.rest_advance hrest₁
  have hrest₃ := State.rest_advance hrest₂
  have hrest₄ := State.rest_advance hrest₃
  have hrest₅ := State.rest_advance hrest₄
  have hheader := ((((State.past_advance (State.peek?_of_rest hrest)).trans
    (State.past_advance (State.peek?_of_rest hrest₁))).trans
    (State.past_advance (State.peek?_of_rest hrest₂))).trans
    (State.past_advance (State.peek?_of_rest hrest₃))).trans
    (State.past_advance (State.peek?_of_rest hrest₄))
  obtain ⟨t, hpast, hrun⟩ := run_statement hrest₅ hkeyword hreturned hsemicolon hcap
  have hdepth : s.advance.advance.advance.advance.advance.depth = s.depth := rfl
  have hall := hheader.trans hpast
  rw [hdepth] at hall
  have hrest₆ : t.cursor.rest = _ := hpast.rest_eq_of_append (by simpa using hrest₅)
  have hfinal := hall.trans (State.past_advance (State.peek?_of_rest hrest₆))
  refine ⟨t.advance, by simpa using hfinal, ?_⟩
  rw [function, run_expect_bind hrest hreturnType, run_expect_bind hrest₁ hname,
    run_expect_bind hrest₂ hopenParen, run_expect_bind hrest₃ hcloseParen,
    run_expect_bind hrest₄ hopenBrace, run_bind, hrun]
  dsimp only
  rw [run_expect_bind hrest₆ hcloseBrace]
  rfl

/-- **A derived program is read**, in strict mode if nothing stands behind it. -/
theorem run_program {program : Program} (strict : Bool)
    (hderives : DerivesProgram dialect tokens program frames)
    (hrest : s.cursor.rest = tokens ++ rest)
    (hcap : ∀ limit ∈ cap, s.depth + frames ≤ limit) (hstrict : strict = true → rest = []) :
    ∃ t, s.Past tokens (s.depth + frames) t ∧
      (Rule.program dialect.operators cap strict).run s = .ok program t := by
  obtain ⟨t, hpast, hrun⟩ := run_function hderives hrest hcap
  refine ⟨t, hpast, ?_⟩
  -- a program has tokens, so the first look at the list finds it non-empty
  have hne : s.cursor.toList ≠ [] := by
    have hlength := hderives.nine_le_length
    intro hnil
    rw [Cursor.toList, hrest] at hnil
    have hzero := congrArg List.length hnil
    simp only [List.length_append, List.length_nil] at hzero
    omega
  rw [Rule.program, run_bind]
  dsimp only [cursor]
  rw [if_neg hne, run_bind, hrun]
  cases strict with
  | false => rfl
  | true =>
    have hpeek : t.cursor.peek? = none := by
      rw [Cursor.peek?, hpast.rest_eq_of_append hrest, hstrict rfl]
      rfl
    dsimp only
    rw [if_pos rfl, run_bind, endOfInput, run_bind, run_peek?]
    dsimp only
    rw [hpeek]
    rfl

end Rule

namespace Parser

open Grammar (DerivesProgram)

variable {settings : Settings} {tokens : List Token}

/-- A call succeeds if the rule for programs does, from the state of the parser to the state that
the call leaves. -/
theorem parseProgram_eq_ok_iff (parser : Parser) {program : Program} :
    parser.parseProgram.1 = .ok program ↔
      (rule parser.settings).run parser.state = .ok program parser.parseProgram.2.state := by
  unfold parseProgram
  cases (rule parser.settings).run parser.state with
  | ok p t => simp
  | error error t => simp

/-- What a call makes of a function, given the token that strict mode finds behind it. -/
def conclude (function : FunctionDefinition) : Option Token → Except ParseError Program
  | none => .ok ⟨function⟩
  | some token => .error (.unexpectedToken .endOfInput token)

/-- A call in a list that is not empty is a run of the rule for functions, and then a look at what
is behind the function in strict mode. -/
theorem parseProgram_eq (parser : Parser) (hne : parser.state.cursor.toList ≠ []) :
    parser.parseProgram =
      match (Rule.function parser.settings.dialect.operators parser.settings.maxDepth).run
        parser.state with
      | .ok function state =>
        (conclude function (if parser.settings.strict then state.cursor.peek? else none),
          { parser with state })
      | .error error state => (.error error, { parser with state }) := by
  have hrun : (rule parser.settings).run parser.state =
      (Rule.function parser.settings.dialect.operators parser.settings.maxDepth >>= fun function =>
        if parser.settings.strict then Rule.endOfInput >>= fun _ => pure ⟨function⟩
        else pure ⟨function⟩).run parser.state := by
    rw [rule, Rule.program, Rule.run_bind]
    dsimp only [Rule.cursor]
    rw [if_neg hne]
  unfold parseProgram
  rw [hrun, Rule.run_bind]
  cases (Rule.function parser.settings.dialect.operators parser.settings.maxDepth).run
    parser.state with
  | error error t => rfl
  | ok function t =>
    cases parser.settings.strict with
    | false => rfl
    | true =>
      dsimp only
      rw [if_pos rfl, if_pos rfl, Rule.run_bind, Rule.endOfInput, Rule.run_bind, Rule.run_peek?]
      cases t.cursor.peek? <;> rfl

/-- The first call of a parser reads exactly the derived programs that its token list starts
with, as far as the cap allows; in strict mode the whole list has to be one. -/
theorem parseProgram_ok_iff {program : Program} {n : Nat} :
    (ofTokens settings tokens).parseProgram.1 = .ok program ∧
        (ofTokens settings tokens).parseProgram.2.position = n ↔
      n ≤ tokens.length ∧ (settings.strict = true → n = tokens.length) ∧
        ∃ frames, DerivesProgram settings.dialect (tokens.take n) program frames ∧
          ∀ limit ∈ settings.maxDepth, frames ≤ limit := by
  rw [parseProgram_eq_ok_iff]
  -- The parser is fresh, so the frames of a tree are the depth it is read at.
  have hdepth : (ofTokens settings tokens).state.depth = 0 := rfl
  constructor
  · rintro ⟨hrun, rfl⟩
    obtain ⟨read, frames, hderives, hpast, hcap, hstrict⟩ := Rule.program_eq_ok hrun
    rw [hdepth, Nat.zero_add] at hcap
    have hrest : tokens = read ++ _ := hpast.rest_eq
    have hposition := hpast.position_eq
    rw [show (ofTokens settings tokens).state.cursor.position = 0 from rfl, Nat.zero_add]
      at hposition
    rw [position, hposition]
    refine ⟨?_, ?_, frames, ?_, ?_⟩
    · rw [hrest, List.length_append]
      exact Nat.le_add_right _ _
    · intro h
      rw [hrest, hstrict h, List.append_nil]
    · rw [hrest, List.take_left]
      exact hderives
    · exact hcap
  · rintro ⟨hle, hstrict, frames, hderives, hcap⟩
    rw [← Nat.zero_add frames, ← hdepth] at hcap
    obtain ⟨t, hpast, hrun⟩ := Rule.run_program settings.strict hderives
      (List.take_append_drop n tokens).symm hcap (fun h => by rw [hstrict h, List.drop_length])
    have hparse : (ofTokens settings tokens).parseProgram =
        (.ok program, ⟨settings, t⟩) := by
      unfold parseProgram
      rw [show (rule (ofTokens settings tokens).settings).run (ofTokens settings tokens).state =
        .ok program t from hrun]
      rfl
    rw [hparse]
    refine ⟨hrun, ?_⟩
    have hposition := hpast.position_eq
    rw [show (ofTokens settings tokens).state.cursor.position = 0 from rfl, Nat.zero_add,
      List.length_take, Nat.min_eq_left hle] at hposition
    exact hposition

end Parser

end MiniC
