import MiniC.Proofs.Grammar.Simulation
import MiniC.Proofs.Result

/-!
# The outcome of a parse, from the automaton

A fresh parser starts where the automaton starts, so what the rules and the automaton have in
common decides the whole outcome: whether the parser yields a program, which error it reports
otherwise, and how many tokens it has consumed by then.

* **`parseProgram_accounts`** reads off the automaton what each outcome means, under every cap.
* **`parseProgram_eq_read`** is the outcome without a cap, as one equation, from which
  `exists_program_of_acceptsAfter`, `unexpectedToken_of_sticksAt` and `unexpectedEnd_of_runsOut`
  take one outcome each.
* **`parseProgram_iff_automaton`** says for each outcome exactly when it occurs, and how each state
  words what it waits for.
-/

namespace MiniC

open Grammar (Automaton Verdict)

variable {dialect : Dialect} {cap : Option Nat} {state next : Automaton} {tokens : List Token}
  {position : Nat} {found : Token}

namespace Rule

/-- A walk from the start of a token list is a walk over the tokens before a position. -/
theorem Walks.take {d : Cursor} (h : Walks dialect state (.ofList tokens) next d)
    (hlist : d.toList = tokens) :
    d.position ≤ tokens.length ∧
      Automaton.walk dialect state (tokens.take d.position) = some next ∧
      tokens.drop d.position = d.rest := by
  obtain ⟨front, hrest, hwalk⟩ := h
  have hrest' : tokens = front ++ d.rest := hrest
  have hlength := congrArg List.length hrest'
  -- the list is what was consumed and what remains, so the front is what was consumed
  have hposition := d.position_add_remaining
  rw [hlist, hlength, List.length_append, Cursor.remaining] at hposition
  have hfront : d.position = front.length := by omega
  refine ⟨by rw [hfront, hlength, List.length_append]; omega, ?_, ?_⟩
  · rw [hfront, hrest', List.take_left]
    exact hwalk
  · rw [hfront, hrest', List.drop_left]

end Rule

/-- What an outcome at a position says about the automaton. -/
def Accounts (dialect : Dialect) (cap : Option Nat) (tokens : List Token) (position : Nat) :
    Except ParseError Program → Prop
  | .ok _ => Automaton.AcceptsAfter dialect tokens position
  | .error (.unexpectedToken expected found) =>
    ∃ state, Automaton.SticksAt dialect tokens position state found ∧ state.expected = expected
  | .error (.unexpectedEnd expected) =>
    position = tokens.length ∧
      ∃ state, Automaton.RunsOut dialect tokens state ∧ state.expected = expected
  | .error (.tooDeep limit _) =>
    limit ∈ cap ∧ ∃ parens,
      Automaton.walk dialect .returnType (tokens.take position) = some (.operand parens)

namespace Parser

variable {settings : Settings}

/-- The rule for programs follows the automaton, strict mode apart. -/
theorem agrees_program (hne : tokens ≠ []) (hstrict : settings.strict = false) :
    Rule.Agrees settings.dialect settings.maxDepth .returnType (.ofList tokens) .accepted
      ((rule settings).run (ofTokens settings tokens).state) := by
  have hrun : (rule settings).run (ofTokens settings tokens).state =
      (Rule.function settings.dialect.operators settings.maxDepth >>= fun f =>
        pure ⟨f⟩).run (ofTokens settings tokens).state := by
    rw [rule, Rule.program, hstrict, Rule.run_bind]
    dsimp only [Rule.cursor]
    rw [if_neg (show ¬(ofTokens settings tokens).state.cursor.toList = [] from hne)]
    rfl
  rw [hrun]
  exact ((Rule.follows_function settings.dialect settings.maxDepth (tokens.length + 1)).bind
    fun _ => Rule.follows_pure _) (ofTokens settings tokens).state (Nat.lt_succ_self _)

/-- **What the outcome of a parse means.** -/
theorem parseProgram_accounts (hne : tokens ≠ []) (hstrict : settings.strict = false) :
    Accounts settings.dialect settings.maxDepth tokens
      (ofTokens settings tokens).parseProgram.2.position
      (ofTokens settings tokens).parseProgram.1 := by
  have hagrees := agrees_program hne hstrict
  have hlist := (parseProgram_ahead (ofTokens settings tokens)).2.toList_eq
  unfold parseProgram at hlist ⊢
  cases hrun : (rule settings).run (ofTokens settings tokens).state with
  | ok program t =>
    rw [hrun] at hagrees
    rw [show (rule (ofTokens settings tokens).settings).run _ = _ from hrun] at hlist ⊢
    obtain ⟨hle, hwalk, -⟩ := Rule.Walks.take hagrees hlist
    exact ⟨hle, hwalk⟩
  | error error t =>
    rw [hrun] at hagrees
    rw [show (rule (ofTokens settings tokens).settings).run _ = _ from hrun] at hlist ⊢
    obtain ⟨last, hwalks, hlast, hstops⟩ := hagrees
    -- the state of the automaton at the error, and what stands there
    obtain ⟨hle, hwalk, hdrop⟩ := hwalks.take hlist
    cases hstops with
    | unexpectedEnd hpeek =>
      rw [List.head?_eq_none_iff.1 hpeek, List.drop_eq_nil_iff] at hdrop
      rw [List.take_of_length_le hdrop] at hwalk
      exact ⟨Nat.le_antisymm hle hdrop, last, ⟨hwalk, hlast⟩, rfl⟩
    | @unexpectedToken found hpeek hstep =>
      have hfound : tokens[t.cursor.position]? = some found := by
        rw [← List.head?_drop, hdrop]
        exact hpeek
      exact ⟨last, ⟨hwalk, hlast, hfound, hstep⟩, rfl⟩
    | tooDeep hlimit hoperand =>
      obtain ⟨parens, rfl⟩ := hoperand
      exact ⟨hlimit, parens, hwalk⟩

end Parser

/-! ## Without a cap -/

def Grammar.Verdict.outcome : Verdict → Except ParseError Unit
  | .accepted => .ok ()
  | .stuck expected found => .error (.unexpectedToken expected found)
  | .exhausted expected => .error (.unexpectedEnd expected)

namespace Parser

theorem parseProgram_accounts_uncapped (dialect : Dialect) (hne : tokens ≠ []) :
    Accounts dialect none tokens
      (ofTokens { dialect, maxDepth := none } tokens).parseProgram.2.position
      (ofTokens { dialect, maxDepth := none } tokens).parseProgram.1 :=
  parseProgram_accounts hne rfl

/-- **Without a cap the automaton decides the outcome**, up to the tree. -/
theorem parseProgram_eq_read (hne : tokens ≠ []) :
    ((ofTokens { dialect, maxDepth := none } tokens).parseProgram.1.map fun _ => ()) =
        (Automaton.read dialect .returnType tokens).1.outcome ∧
      (ofTokens { dialect, maxDepth := none } tokens).parseProgram.2.position =
        (Automaton.read dialect .returnType tokens).2 := by
  have haccounts := parseProgram_accounts_uncapped dialect hne
  generalize (ofTokens { dialect, maxDepth := none } tokens).parseProgram = outcome at haccounts ⊢
  obtain ⟨result, parser⟩ := outcome
  match result with
  | .ok program =>
    rw [Automaton.AcceptsAfter.read_eq haccounts]
    exact ⟨rfl, rfl⟩
  | .error (.unexpectedToken expected found) =>
    obtain ⟨state, hsticks, rfl⟩ := haccounts
    rw [hsticks.read_eq]
    exact ⟨rfl, rfl⟩
  | .error (.unexpectedEnd expected) =>
    obtain ⟨hend, state, hout, rfl⟩ := haccounts
    rw [hout.read_eq]
    exact ⟨rfl, hend⟩
  | .error (.tooDeep limit location) => cases haccounts.1

/-- Where the automaton accepts, the parser yields a program. -/
theorem exists_program_of_acceptsAfter (h : Automaton.AcceptsAfter dialect tokens position) :
    (∃ program, (ofTokens { dialect, maxDepth := none } tokens).parseProgram.1 = .ok program) ∧
      (ofTokens { dialect, maxDepth := none } tokens).parseProgram.2.position = position := by
  have hne : tokens ≠ [] := by
    rintro rfl
    obtain ⟨-, hwalk⟩ := h
    rw [List.take_nil] at hwalk
    cases hwalk
  obtain ⟨hresult, hposition⟩ := @parseProgram_eq_read dialect tokens hne
  rw [h.read_eq] at hresult hposition
  obtain ⟨program, hok, -⟩ := Result.map_eq_ok_iff.1 hresult
  exact ⟨⟨program, hok⟩, hposition⟩

/-- Where the automaton is stuck, the token there is reported. -/
theorem unexpectedToken_of_sticksAt (h : Automaton.SticksAt dialect tokens position state found) :
    (ofTokens { dialect, maxDepth := none } tokens).parseProgram.1 =
        .error (.unexpectedToken state.expected found) ∧
      (ofTokens { dialect, maxDepth := none } tokens).parseProgram.2.position = position := by
  have hne : tokens ≠ [] := by
    rintro rfl
    cases h.2.2.1
  obtain ⟨hresult, hposition⟩ := @parseProgram_eq_read dialect tokens hne
  rw [h.read_eq] at hresult hposition
  exact ⟨Result.map_eq_error_iff.1 hresult, hposition⟩

/-- Where the automaton runs out of tokens, the input ends too early. No tokens at all are refused
in words of their own. -/
theorem unexpectedEnd_of_runsOut (hne : tokens ≠ [])
    (h : Automaton.RunsOut dialect tokens state) :
    (ofTokens { dialect, maxDepth := none } tokens).parseProgram.1 =
        .error (.unexpectedEnd state.expected) ∧
      (ofTokens { dialect, maxDepth := none } tokens).parseProgram.2.position = tokens.length := by
  obtain ⟨hresult, hposition⟩ := @parseProgram_eq_read dialect tokens hne
  rw [h.read_eq] at hresult hposition
  exact ⟨Result.map_eq_error_iff.1 hresult, hposition⟩

/-- **Each outcome without a cap, and exactly when it occurs.** A program is yielded where the
automaton accepts; a token is refused where the automaton is stuck on it; the input ends too early
where the automaton runs out of tokens. What was expected is what the state waits for, in
that state's wording: each state of the header and the one behind the statement name their own
piece, `operand` asks for an expression at every depth, and `after` for the semicolon, or for the
closing parenthesis while one is open. -/
theorem parseProgram_iff_automaton (dialect : Dialect) (first : Token) (rest : List Token) :
    let tokens := first :: rest
    let outcome := (ofTokens { dialect, maxDepth := none } tokens).parseProgram
    let label (state : Automaton) := state.expected.describe
    (∀ position, (∃ program, outcome.1 = .ok program) ∧ outcome.2.position = position ↔
      Automaton.AcceptsAfter dialect tokens position) ∧
    (∀ position expected found,
      outcome.1 = .error (.unexpectedToken expected found) ∧ outcome.2.position = position ↔
        ∃ state, Automaton.SticksAt dialect tokens position state found ∧
          state.expected = expected) ∧
    (∀ position expected,
      outcome.1 = .error (.unexpectedEnd expected) ∧ outcome.2.position = position ↔
        position = tokens.length ∧
          ∃ state, Automaton.RunsOut dialect tokens state ∧ state.expected = expected) ∧
    (∀ limit location, outcome.1 ≠ .error (.tooDeep limit location)) ∧
    label .returnType = "return type 'int'" ∧
    label .functionName = "a function name" ∧
    label .openParameters = "'(' after the function name" ∧
    label .closeParameters = "')' to close the parameter list" ∧
    label .openBody = "'\x7b' before the function body" ∧
    label .returnKeyword = "return statement" ∧
    (∀ parens, label (.operand parens) = "an expression") ∧
    label (.after 0) = "';' after the return expression" ∧
    (∀ parens, label (.after (parens + 1)) = "')' to close the parenthesized expression") ∧
    label .closing = "'\x7d' after the function body" := by
  intro tokens outcome label
  have hne : tokens ≠ [] := List.cons_ne_nil first rest
  -- each outcome is accounted for by the automaton; the ways back are the lemmas above
  have haccounts : Accounts dialect none tokens outcome.2.position outcome.1 :=
    parseProgram_accounts_uncapped dialect hne
  refine ⟨fun position => ⟨?_, exists_program_of_acceptsAfter⟩,
    fun position expected found => ⟨?_, ?_⟩, fun position expected => ⟨?_, ?_⟩,
    fun limit location h => ?_, rfl, rfl, rfl, rfl, rfl, rfl, fun _ => rfl, rfl, fun _ => rfl, rfl⟩
  · rintro ⟨⟨program, hok⟩, rfl⟩
    rw [hok] at haccounts
    exact haccounts
  · rintro ⟨herror, rfl⟩
    rw [herror] at haccounts
    exact haccounts
  · rintro ⟨state, h, rfl⟩
    exact unexpectedToken_of_sticksAt h
  · rintro ⟨herror, rfl⟩
    rw [herror] at haccounts
    exact haccounts
  · rintro ⟨rfl, state, h, rfl⟩
    exact unexpectedEnd_of_runsOut hne h
  · -- there is no limit that could be exceeded
    rw [h] at haccounts
    cases haccounts.1

end Parser

end MiniC
