import MiniC.Proofs.Parse.Prefix

/-!
# Several calls of one parser

A parser that is called again goes on where the last call has left its cursor. Whatever the earlier
calls came to, a program or any error, the next one does what a fresh parser does with the tokens
that are left. The one exception is a list that is used up: a fresh parser without tokens misses a
function declaration, a parser that is called again misses a return type.

## The architecture

* **`State.Inside`** also relates a fresh parser on the rest of a list to a parser in that list.
  Nothing stands behind the rest, so there is nothing to wait for: **`finish_of_rest`**.
* **`parseProgram_of_rest`** and **`parseProgram_at_end`** are the two kinds of calls.
* **`afterCalls_ahead`** keeps the token list, the settings and the nesting depth over any number of
  calls, and **`session_restarts_on_rest`** is the result for each call of a session.
-/

namespace MiniC

variable {older : List Token}

namespace Rule

variable {s t : State}

/-! ## The rest of a list -/

theorem State.Inside.toList_eq (h : s.Inside older [] t) :
    t.cursor.toList = older.reverse ++ s.cursor.toList := by
  rw [Cursor.toList, h.rest_eq, h.consumed_eq, List.reverse_append, List.append_nil,
    List.append_assoc]
  rfl

theorem State.Inside.peek?_eq_of_rest (h : s.Inside older [] t) :
    t.cursor.peek? = s.cursor.peek? := by
  rw [Cursor.peek?, h.rest_eq, List.append_nil]
  rfl

/-- The last token of a list is the last one of its rest, if the rest has tokens. -/
theorem State.Inside.location_eq_of_rest (h : s.Inside older [] t)
    (hne : s.cursor.toList ≠ []) : t.cursor.location = s.cursor.location := by
  have hpeek := h.peek?_eq_of_rest
  cases hs : s.cursor.peek? with
  | some token =>
    rw [hs] at hpeek
    rw [Cursor.location_of_peek? hs, Cursor.location_of_peek? hpeek]
  | none =>
    rw [hs] at hpeek
    have hlast : s.cursor.toList.getLast? = some (s.cursor.toList.getLast hne) :=
      List.getLast?_eq_some_getLast hne
    rw [Cursor.location_of_getLast? hs hlast]
    apply Cursor.location_of_getLast? hpeek
    rw [h.toList_eq, List.getLast?_append, hlast]
    rfl

end Rule

namespace Parser

/-- Where nothing stands behind the shorter list, a call in the longer one has the same result. -/
theorem finish_of_rest {short long : Rule.Outcome FunctionDefinition} (strict : Bool)
    (h : Rule.GoesOn False older [] short long) (hne : short.state.cursor.toList ≠ [])
    (hle : long.state.cursor.position ≤ older.length + short.state.cursor.toList.length) :
    (finish strict long).1 = (finish strict short).1 ∧
      (finish strict long).2 = older.length + (finish strict short).2 := by
  cases h with
  | ok hinside =>
    rw [finish, finish, hinside.peek?_eq_of_rest, hinside.position_eq, Nat.add_comm]
    exact ⟨rfl, rfl⟩
  | tooDeep hinside =>
    rw [finish, finish, hinside.location_eq_of_rest hne, hinside.position_eq, Nat.add_comm]
    exact ⟨rfl, rfl⟩
  | missing hinside =>
    rw [finish, finish, hinside.peek?_eq_of_rest, hinside.position_eq, Nat.add_comm]
    exact ⟨rfl, rfl⟩
  | @waits expected s _ hend hlater =>
    -- the longer list has no token that could still come
    have hposition : s.cursor.position = s.cursor.toList.length :=
      Cursor.position_of_peek?_eq_none hend
    change long.state.cursor.position ≤ older.length + s.cursor.toList.length at hle
    omega
  | stops hgreedy => exact hgreedy.elim

/-- **A call that finds tokens** does what a fresh parser does with them. -/
theorem parseProgram_of_rest (parser : Parser) (hdepth : parser.state.depth = 0)
    (hrest : parser.state.cursor.rest ≠ []) :
    parser.parseProgram.1 = (outcome parser.settings parser.state.cursor.rest).1 ∧
      parser.parseProgram.2.position =
        parser.position + (outcome parser.settings parser.state.cursor.rest).2 := by
  have hne : parser.state.cursor.toList ≠ [] := List.append_ne_nil_of_right_ne_nil _ hrest
  have hinside : Rule.State.Inside parser.state.cursor.consumed []
      { cursor := .ofList parser.state.cursor.rest } parser.state :=
    ⟨(List.append_nil _).symm, rfl, hdepth⟩
  have hgo : Rule.GoesOn False parser.state.cursor.consumed []
      (readFunction parser.settings parser.state.cursor.rest)
      ((Rule.function parser.settings.dialect.operators parser.settings.maxDepth).run
        parser.state) :=
    (Rule.incremental_function _ _ _).goesOn hinside (Nat.lt_succ_self _)
  -- neither run leaves its token list
  have hlist := toList_readFunction parser.settings parser.state.cursor.rest
  have hahead : Rule.State.Ahead parser.settings.maxDepth parser.state _ :=
    Rule.steady_function parser.settings.dialect.operators parser.state
  have hle := hahead.position_le_length
  rw [hinside.toList_eq, List.length_append, List.length_reverse] at hle
  have hfinish := finish_of_rest parser.settings.strict hgo (by rw [hlist]; exact hrest)
    (by rw [hlist]; exact hle)
  rw [← parseProgram_eq_finish parser hne] at hfinish
  rw [outcome_eq_finish parser.settings hrest]
  exact hfinish

/-- **A call that finds no tokens** leaves the parser as it is. -/
theorem parseProgram_at_end (parser : Parser) (hne : parser.state.cursor.toList ≠ [])
    (hend : parser.state.cursor.rest = []) :
    parser.parseProgram = (.error (.unexpectedEnd .returnType), parser) := by
  have hpeek : parser.state.cursor.peek? = none := by
    rw [Cursor.peek?, hend]
    rfl
  rw [parseProgram_eq parser hne, Rule.function, Rule.run_bind, Rule.run_expect, hpeek]

/-! ## Sessions -/

def afterCalls : Nat → Parser → Parser
  | 0, parser => parser
  | calls + 1, parser => afterCalls calls parser.parseProgram.2

/-- One call more adds the call of the parser that the others have left. -/
theorem session_succ (calls : Nat) (parser : Parser) :
    session (calls + 1) parser =
      session calls parser ++ [(afterCalls calls parser).parseProgram] := by
  induction calls generalizing parser with
  | zero => rfl
  | succ calls ih => exact congrArg (parser.parseProgram :: ·) (ih parser.parseProgram.2)

/-- Calls can be made in two rounds. -/
theorem afterCalls_add (calls more : Nat) (parser : Parser) :
    afterCalls (calls + more) parser = afterCalls more (afterCalls calls parser) := by
  induction calls generalizing parser with
  | zero => rw [Nat.zero_add, afterCalls]
  | succ calls ih =>
    rw [Nat.add_right_comm]
    exact ih parser.parseProgram.2

theorem afterCalls_succ (calls : Nat) (parser : Parser) :
    afterCalls (calls + 1) parser = (afterCalls calls parser).parseProgram.2 :=
  afterCalls_add calls 1 parser

/-- A call of the parser fails and leaves it as it is. -/
def Settled (parser : Parser) : Prop :=
  ∃ error, parser.parseProgram = (.error error, parser)

/-- No number of calls changes a settled parser. -/
theorem Settled.afterCalls_eq {parser : Parser} (h : parser.Settled) (calls : Nat) :
    afterCalls calls parser = parser := by
  obtain ⟨error, hcall⟩ := h
  induction calls with
  | zero => rfl
  | succ calls ih => rw [afterCalls_succ, ih, hcall]

/-- Each entry of a session is a call of the parser that the calls before it have left. -/
theorem getElem?_session {call calls : Nat} (h : call < calls) (parser : Parser) :
    (session calls parser)[call]? = some (afterCalls call parser).parseProgram := by
  induction call generalizing calls parser with
  | zero =>
    obtain ⟨calls, rfl⟩ := Nat.exists_eq_add_one_of_ne_zero (Nat.ne_of_gt h)
    rfl
  | succ call ih =>
    obtain ⟨calls, rfl⟩ := Nat.exists_eq_add_one_of_ne_zero (Nat.ne_of_gt (Nat.zero_lt_of_lt h))
    exact ih (Nat.lt_of_succ_lt_succ h) parser.parseProgram.2

/-- However many calls were made, the parser is in its own list, at no depth, and under its own
settings. -/
theorem afterCalls_ahead (calls : Nat) (parser : Parser) :
    (afterCalls calls parser).settings = parser.settings ∧
      Rule.State.Ahead parser.settings.maxDepth parser.state
        (afterCalls calls parser).state := by
  induction calls generalizing parser with
  | zero => exact ⟨rfl, .refl _⟩
  | succ calls ih =>
    obtain ⟨hsettings, hahead⟩ := parseProgram_ahead parser
    obtain ⟨hsettings', hahead'⟩ := ih parser.parseProgram.2
    rw [hsettings] at hsettings' hahead'
    exact ⟨hsettings', hahead.trans hahead'⟩

/-- **A parser that is called again does what a fresh one does on the rest.** This holds for each
call of a session, whatever the calls before it came to. None of them leaves any nesting behind, so
the cap is what it was. -/
theorem session_restarts_on_rest (settings : Settings) (first : Token) (rest : List Token)
    (calls : Nat) :
    let tokens := first :: rest
    let parser := afterCalls calls (ofTokens settings tokens)
    let position := parser.position
    session (calls + 1) (ofTokens settings tokens) =
        session calls (ofTokens settings tokens) ++ [parser.parseProgram] ∧
      parser.settings = settings ∧ parser.state.depth = 0 ∧ position ≤ tokens.length ∧
      (position < tokens.length →
        let fresh := (ofTokens settings (tokens.drop position)).parseProgram
        parser.parseProgram.1 = fresh.1 ∧
          parser.parseProgram.2.position = position + fresh.2.position) ∧
      (position = tokens.length →
        parser.parseProgram.1 = .error (.unexpectedEnd .returnType) ∧
          Expectation.returnType.describe = "return type 'int'" ∧
          parser.parseProgram.2.position = position) := by
  intro tokens parser position
  obtain ⟨hsettings, hahead⟩ : parser.settings = settings ∧
      Rule.State.Ahead settings.maxDepth (ofTokens settings tokens).state parser.state :=
    afterCalls_ahead calls (ofTokens settings tokens)
  have hlist : parser.state.cursor.toList = tokens := hahead.toList_eq
  have hdepth : parser.state.depth = 0 := hahead.depth_eq
  -- a call sees of the list only what is left of it
  have hrest : parser.state.cursor.rest = tokens.drop position := by
    rw [← hlist]
    exact (Cursor.drop_position parser.state.cursor).symm
  refine ⟨session_succ calls _, hsettings, hdepth, hahead.position_le_length, fun hlt => ?_,
    fun hend => ?_⟩
  · have hne : parser.state.cursor.rest ≠ [] := by
      rw [hrest, Ne, List.drop_eq_nil_iff]
      exact Nat.not_le.2 hlt
    have hcall := parseProgram_of_rest parser hdepth hne
    rw [hsettings, hrest] at hcall
    exact hcall
  · have hnil : parser.state.cursor.rest = [] := by
      rw [hrest, List.drop_eq_nil_iff]
      exact Nat.le_of_eq hend.symm
    have hne : parser.state.cursor.toList ≠ [] := by
      rw [hlist]
      exact List.cons_ne_nil first rest
    rw [parseProgram_at_end parser hne hnil]
    exact ⟨rfl, rfl, rfl⟩

end Parser

end MiniC
