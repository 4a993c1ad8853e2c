import MiniC.Proofs.Grammar.Minus
import MiniC.Proofs.Grammar.Outcome

/-!
# Errors stand at the first impossible token

A parser reads from the left, and it never needs a token that is still to come to see that a token
is wrong. So what it has consumed when it reports an error is always the beginning of some program,
and with the reported token at its end it is the beginning of none.

## The crux

The first half needs a program for every place where the parser may be: the parentheses that are
still open have to be closed, an operand that is due has to be supplied. All that matters about the
place is the state of the automaton there, so `completion` is a function of the state.

## The architecture

* **`walk_completion`** says that every state can be completed.
* **`SticksAt.take_append`** says that the token a state is stuck on decides for every list that
  goes on behind it; **`AcceptsAfter.runsOut_take`** that within a program the automaton never
  accepts.
* **`accepts_iff`** ties all this to the parser.
-/

namespace MiniC

namespace Grammar.Automaton

variable {dialect : Dialect} {state next : Automaton} {tokens rest : List Token} {found : Token}
  {position : Nat}

/-! ## Completions -/

/-- Kinds of tokens that lead from a state to the end of a program. -/
def completion : Automaton → List Token.Kind
  | returnType =>
    [.intKeyword, .identifier, .openParen, .closeParen, .openBrace, .returnKeyword, .intLiteral,
      .semicolon, .closeBrace]
  | functionName =>
    [.identifier, .openParen, .closeParen, .openBrace, .returnKeyword, .intLiteral, .semicolon,
      .closeBrace]
  | openParameters =>
    [.openParen, .closeParen, .openBrace, .returnKeyword, .intLiteral, .semicolon, .closeBrace]
  | closeParameters =>
    [.closeParen, .openBrace, .returnKeyword, .intLiteral, .semicolon, .closeBrace]
  | openBody => [.openBrace, .returnKeyword, .intLiteral, .semicolon, .closeBrace]
  | returnKeyword => [.returnKeyword, .intLiteral, .semicolon, .closeBrace]
  | operand parens =>
    .intLiteral :: (List.replicate parens .closeParen ++ [.semicolon, .closeBrace])
  | after parens => List.replicate parens .closeParen ++ [.semicolon, .closeBrace]
  | closing => [.closeBrace]
  | accepted => []

/-- Behind an operand the open parentheses can be closed one by one, and then the function. -/
theorem walk_completion_after (dialect : Dialect) (parens : Nat) :
    walk dialect (after parens) ((completion (after parens)).map Token.ofKind) =
      some accepted := by
  induction parens with
  | zero => rfl
  | succ parens ih =>
    -- one parenthesis is closed, and the rest completes the state behind it
    show walk dialect (after (parens + 1)) (Token.ofKind .closeParen ::
      (completion (after parens)).map Token.ofKind) = some accepted
    have hstep : step? dialect (after (parens + 1)) (Token.ofKind .closeParen).kind =
        some (after parens) := rfl
    rw [walk_cons_of_some hstep]
    exact ih

/-- **Every state can be completed.** -/
theorem walk_completion (dialect : Dialect) (state : Automaton) :
    walk dialect state ((completion state).map Token.ofKind) = some accepted := by
  cases state with
  | operand parens =>
    show walk dialect (operand parens) (Token.ofKind .intLiteral ::
      (completion (after parens)).map Token.ofKind) = some accepted
    have hstep : step? dialect (operand parens) (Token.ofKind .intLiteral).kind =
        some (after parens) := rfl
    rw [walk_cons_of_some hstep]
    exact walk_completion_after dialect parens
  | after parens => exact walk_completion_after dialect parens
  | _ => rfl

/-- What has been walked over is the beginning of a program. -/
theorem exists_acceptsAfter_append (h : walk dialect returnType tokens = some state) :
    ∃ rest, AcceptsAfter dialect (tokens ++ rest) (tokens ++ rest).length := by
  refine ⟨(completion state).map Token.ofKind, Nat.le_refl _, ?_⟩
  rw [List.take_length, walk_append h]
  exact walk_completion dialect state

/-! ## What the tokens so far decide -/

/-- Where the automaton is stuck, it is stuck whatever follows. -/
theorem SticksAt.take_append (h : SticksAt dialect tokens position state found)
    (rest : List Token) :
    SticksAt dialect (tokens.take (position + 1) ++ rest) position state found := by
  obtain ⟨hwalk, hne, hfound, hstep⟩ := h
  obtain ⟨hlt, -⟩ := List.getElem?_eq_some_iff.1 hfound
  have hlength : (tokens.take (position + 1)).length = position + 1 := by
    rw [List.length_take]
    omega
  refine ⟨?_, hne, ?_, hstep⟩
  · rw [List.take_append_of_le_length (by omega), List.take_take, Nat.min_eq_left (by omega)]
    exact hwalk
  · rw [List.getElem?_append_left (by omega), List.getElem?_take_of_lt (Nat.lt_succ_self _)]
    exact hfound

/-- In a list that is accepted the automaton is stuck nowhere, for reading the list comes to one
verdict. -/
theorem AcceptsAfter.not_sticksAt (h : AcceptsAfter dialect tokens position) (place : Nat) :
    ¬ SticksAt dialect tokens place state found := by
  intro hsticks
  have hread := h.read_eq.symm.trans hsticks.read_eq
  cases hread

/-- The automaton accepts nowhere within a program, so a list that ends there is too short. -/
theorem AcceptsAfter.runsOut_take (h : AcceptsAfter dialect tokens position) {k : Nat}
    (hk : k < position) : ∃ state, RunsOut dialect (tokens.take k) state := by
  obtain ⟨hle, hwalk⟩ := h
  have hsplit : tokens.take position = tokens.take k ++ (tokens.take position).drop k := by
    have hparts := List.take_append_drop k (tokens.take position)
    rw [List.take_take, Nat.min_eq_left (Nat.le_of_lt hk)] at hparts
    exact hparts.symm
  rw [hsplit, walk_append_eq_bind, Option.bind_eq_some_iff] at hwalk
  obtain ⟨middle, hfront, hback⟩ := hwalk
  refine ⟨middle, hfront, ?_⟩
  rintro rfl
  -- behind the accepting state no token fits, yet some are left
  cases hbehind : (tokens.take position).drop k with
  | nil =>
    have hlength := congrArg List.length hbehind
    rw [List.length_drop, List.length_take, List.length_nil] at hlength
    omega
  | cons token back =>
    rw [hbehind, walk, step?_accepted] at hback
    cases hback

end Grammar.Automaton

namespace Parser

open Grammar (Automaton)

variable {dialect : Dialect} {tokens : List Token} {position : Nat}

/-- Without a cap and outside of strict mode, a fresh parser yields a program and stops behind that
many tokens. -/
def Accepts (dialect : Dialect) (tokens : List Token) (position : Nat) : Prop :=
  (∃ program, (ofTokens { dialect, maxDepth := none } tokens).parseProgram.1 = .ok program) ∧
    (ofTokens { dialect, maxDepth := none } tokens).parseProgram.2.position = position

/-- The parser accepts a list after as many tokens as the automaton does. -/
theorem accepts_iff : Accepts dialect tokens position ↔
    Automaton.AcceptsAfter dialect tokens position := by
  constructor
  · -- the empty list is no program, and of any other the automaton accounts for the outcome
    rintro ⟨⟨program, hok⟩, rfl⟩
    have hne : tokens ≠ [] := by
      rintro rfl
      rw [parseProgram_of_nil rfl] at hok
      cases hok
    have haccounts := parseProgram_accounts_uncapped dialect hne
    rw [hok] at haccounts
    exact haccounts
  · exact exists_program_of_acceptsAfter

/-- Within a program the input ends too early. -/
theorem exists_unexpectedEnd_of_runsOut {state : Automaton}
    (h : Automaton.RunsOut dialect tokens state) :
    ∃ expected, (ofTokens { dialect, maxDepth := none } tokens).parseProgram.1 =
      .error (.unexpectedEnd expected) := by
  cases tokens with
  | nil => exact ⟨.functionDeclaration, congrArg Prod.fst (parseProgram_of_nil rfl)⟩
  | cons first rest =>
    obtain ⟨hresult, -⟩ := unexpectedEnd_of_runsOut (List.cons_ne_nil first rest) h
    exact ⟨state.expected, hresult⟩

/-- **Errors stand at the first impossible token.** What was consumed before an unexpected token can
be completed to a program, and with that token at its end it cannot, whatever follows. Where the
input ended too early all of it was consumed, and it can be completed. So every list that ends
within a program is reported to end too early. -/
theorem fails_at_first_impossible_token (dialect : Dialect) (tokens : List Token) :
    let outcome := (ofTokens { dialect, maxDepth := none } tokens).parseProgram
    (∀ expected found, outcome.1 = .error (.unexpectedToken expected found) →
      tokens[outcome.2.position]? = some found ∧
      (∃ rest, Accepts dialect (tokens.take outcome.2.position ++ rest)
        (tokens.take outcome.2.position ++ rest).length) ∧
      ∀ rest position, ¬ Accepts dialect (tokens.take (outcome.2.position + 1) ++ rest) position) ∧
    (∀ expected, outcome.1 = .error (.unexpectedEnd expected) →
      outcome.2.position = tokens.length ∧
        ∃ rest, Accepts dialect (tokens ++ rest) (tokens ++ rest).length) ∧
    (Accepts dialect tokens tokens.length → ∀ k < tokens.length, ∃ expected,
      (ofTokens { dialect, maxDepth := none } (tokens.take k)).parseProgram.1 =
        .error (.unexpectedEnd expected)) := by
  intro outcome
  simp only [accepts_iff]
  refine ⟨fun expected found herror => ?_, fun expected herror => ?_, fun haccepts k hk => ?_⟩
  · have hne : tokens ≠ [] := by
      rintro rfl
      cases herror
    have haccounts : Accounts dialect none tokens outcome.2.position outcome.1 :=
      parseProgram_accounts_uncapped dialect hne
    rw [herror] at haccounts
    obtain ⟨state, hsticks, -⟩ := haccounts
    exact ⟨hsticks.2.2.1, Automaton.exists_acceptsAfter_append hsticks.1,
      fun rest position haccepts => haccepts.not_sticksAt _ (hsticks.take_append rest)⟩
  · rcases tokens with _ | ⟨first, rest⟩
    · -- no tokens at all are the beginning of every program
      have hstart : Automaton.walk dialect .returnType [] = some .returnType := rfl
      exact ⟨rfl, Automaton.exists_acceptsAfter_append hstart⟩
    · have haccounts : Accounts dialect none (first :: rest) outcome.2.position outcome.1 :=
        parseProgram_accounts_uncapped dialect (List.cons_ne_nil first rest)
      rw [herror] at haccounts
      obtain ⟨hend, state, hout, -⟩ := haccounts
      exact ⟨hend, Automaton.exists_acceptsAfter_append hout.1⟩
  · obtain ⟨state, hout⟩ := haccepts.runsOut_take hk
    exact exists_unexpectedEnd_of_runsOut hout

end Parser

end MiniC
