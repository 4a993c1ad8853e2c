import MiniC.Proofs.Parse.Session

/-!
# Where a call that fails leaves the parser

An error is found by whatever rule is running at the time, and then passes through all the rules
that wait for it. None of them moves the cursor any more. So the parser that is left stands where
the error was found: before the token that the error is about, at the end of the list if it is about
the end, and at the place that was nested too deep.

## The crux

A rule says where it stops only through the automaton: the tokens that a call has consumed lead the
automaton to a state that fits the error (`Rule.follows_function`). Nothing but an operand can be
nested too deep, and the states count the tokens that lead to them, so the header was read by then.

## The architecture

* **`Automaton.least`** is the number of tokens that it takes to come to a state, and
  **`least_le_of_walk`** is that bound along a walk.
* **`Cursor.exists_location`** finds the token that the place of a cursor belongs to.
* **`ParseError.FoundAt`** says what stands where an error was found, and
  **`parseProgram_foundAt`** is this for one call.
* **`failed_call_stands_at_error`** is the result for each call of a session.
-/

namespace MiniC

open Grammar (Automaton)

variable {dialect : Dialect} {tokens : List Token} {c d : Cursor} {error : ParseError}

/-! ## Tokens on the way to a state -/

namespace Grammar.Automaton

/-- The least number of tokens that lead from the start to a state. -/
def least : Automaton → Nat
  | returnType => 0
  | functionName => 1
  | openParameters => 2
  | closeParameters => 3
  | openBody => 4
  | returnKeyword => 5
  | operand _ => 6
  | after _ => 7
  | closing => 8
  | accepted => 9

/-- One token leads at most one state further. -/
theorem least_le_of_step? {state next : Automaton} {kind : Token.Kind}
    (h : step? dialect state kind = some next) : next.least ≤ state.least + 1 := by
  unfold step? at h
  split at h <;> grind [least]

/-- So a walk to a state goes over as many tokens as the state needs. -/
theorem least_le_of_walk {state next : Automaton} (h : walk dialect state tokens = some next) :
    next.least ≤ state.least + tokens.length := by
  induction tokens generalizing state with
  | nil =>
    obtain rfl : state = next := Option.some.inj h
    exact Nat.le_refl _
  | cons token tokens ih =>
    rw [walk] at h
    split at h
    next => cases h
    next middle hstep =>
      have hfirst := least_le_of_step? hstep
      have hrest := ih h
      rw [List.length_cons]
      omega

end Grammar.Automaton

/-! ## Positions and tokens -/

/-- A walk to an operand goes over the six tokens of the header. -/
theorem Rule.Walks.position_add_six_le {parens : Nat}
    (h : Walks dialect .returnType c (.operand parens) d) (hlist : d.toList = c.toList) :
    c.position + 6 ≤ d.position := by
  obtain ⟨read, hrest, hwalk⟩ := h
  have hleast : 6 ≤ 0 + read.length := Grammar.Automaton.least_le_of_walk hwalk
  -- the two cursors share a list, so what was read has changed hands
  have hc := c.position_add_remaining
  have hd := d.position_add_remaining
  have hread : c.remaining = read.length + d.remaining := by
    unfold Cursor.remaining
    rw [hrest, List.length_append]
  rw [hlist] at hd
  omega

/-- Behind a token a cursor has a place in the list: that of the next token, or at the end that of
the last one. -/
theorem Cursor.exists_location (h : 0 < d.position) :
    ∃ token, d.location = token.location ∧
      (d.peek? = some token ∨ d.peek? = none ∧ d.toList.getLast? = some token) := by
  cases hpeek : d.peek? with
  | some token => exact ⟨token, location_of_peek? hpeek, .inl rfl⟩
  | none =>
    have hne : d.toList ≠ [] := by
      apply List.ne_nil_of_length_pos
      rwa [← position_of_peek?_eq_none hpeek]
    have hlast : d.toList.getLast? = some (d.toList.getLast hne) :=
      List.getLast?_eq_some_getLast hne
    exact ⟨_, location_of_getLast? hpeek hlast, .inr ⟨rfl, hlast⟩⟩

/-! ## One call -/

/-- `error.FoundAt cap c d`: from `c` on the error was found at `d`. -/
inductive ParseError.FoundAt (cap : Option Nat) (c d : Cursor) : ParseError → Prop where
  | unexpectedToken {expected : Expectation} {found : Token} (hpeek : d.peek? = some found) :
      FoundAt cap c d (.unexpectedToken expected found)
  | unexpectedEnd {expected : Expectation} (hpeek : d.peek? = none) :
      FoundAt cap c d (.unexpectedEnd expected)
  | tooDeep {limit : Nat} (hlimit : limit ∈ cap) (hread : c.position + 6 ≤ d.position) :
      FoundAt cap c d (.tooDeep limit d.location)

namespace Parser

/-- **An error of a call is found where the parser is left.** -/
theorem parseProgram_foundAt (parser : Parser) (herror : parser.parseProgram.1 = .error error) :
    error.FoundAt parser.settings.maxDepth parser.state.cursor
      parser.parseProgram.2.state.cursor := by
  by_cases hnil : parser.state.cursor.toList = []
  · -- a list without tokens is at its end everywhere
    rw [parseProgram_of_nil hnil] at herror ⊢
    obtain rfl := Except.error.inj herror
    apply ParseError.FoundAt.unexpectedEnd
    rw [Cursor.peek?, (List.append_eq_nil_iff.1 hnil).2]
    rfl
  have hlist := (parseProgram_ahead parser).2.toList_eq
  have hagrees := Rule.follows_function parser.settings.dialect parser.settings.maxDepth _
    parser.state (Nat.lt_succ_self _)
  rw [parseProgram_eq parser hnil] at herror hlist ⊢
  cases hrun : (Rule.function parser.settings.dialect.operators parser.settings.maxDepth).run
    parser.state with
  | ok function t =>
    rw [hrun] at herror
    dsimp only at herror
    -- the function was read, so strict mode has found a token behind it
    cases hpeek : (if parser.settings.strict then t.cursor.peek? else none) with
    | none =>
      rw [hpeek] at herror
      cases herror
    | some found =>
      rw [hpeek] at herror
      obtain rfl := Except.error.inj herror
      exact .unexpectedToken (Option.ite_none_right_eq_some.1 hpeek).2
  | error error' t =>
    rw [hrun] at hagrees herror hlist
    obtain rfl : error' = error := Except.error.inj herror
    obtain ⟨last, hwalks, -, hstops⟩ := hagrees
    cases hstops with
    | unexpectedEnd hpeek => exact .unexpectedEnd hpeek
    | unexpectedToken hpeek _ => exact .unexpectedToken hpeek
    | tooDeep hlimit hoperand =>
      obtain ⟨parens, rfl⟩ := hoperand
      exact .tooDeep hlimit (hwalks.position_add_six_le hlist)

/-! ## Sessions -/

/-- **A call that fails leaves the parser where it has found its error.** If the error is about a
token, that token comes next; if it is about the end of the input, all tokens are consumed. What is
nested too deep is behind the header of a function that this call has read, the limit is that of the
settings, and the place is that of the next token, or of the last one at the end. After each call,
whatever it comes to, no rule is running any more, and at no time were more running than the cap
allows. -/
theorem failed_call_stands_at_error (settings : Settings) (tokens : List Token) (calls : Nat) :
    let start := ofTokens settings tokens
    let parser := afterCalls calls start
    let result := parser.parseProgram.1
    let left := parser.parseProgram.2
    session (calls + 1) start = session calls start ++ [(result, left)] ∧
    (∀ expected found, result = .error (.unexpectedToken expected found) →
      tokens[left.position]? = some found) ∧
    (∀ expected, result = .error (.unexpectedEnd expected) → left.position = tokens.length) ∧
    (∀ limit location, result = .error (.tooDeep limit location) →
      settings.maxDepth = some limit ∧ parser.position + 6 ≤ left.position ∧
      ∃ token, location = token.location ∧
        (tokens[left.position]? = some token ∨
          left.position = tokens.length ∧ tokens.getLast? = some token)) ∧
    left.state.depth = 0 ∧ ∀ limit ∈ settings.maxDepth, left.state.peak ≤ limit := by
  intro start parser result left
  obtain ⟨hsettings, -⟩ : parser.settings = settings ∧ _ := afterCalls_ahead calls start
  have hahead : Rule.State.Ahead settings.maxDepth start.state left.state := by
    have hlater := (afterCalls_ahead (calls + 1) start).2
    rwa [afterCalls_succ] at hlater
  have hlist : left.state.cursor.toList = tokens := hahead.toList_eq
  have hnext : tokens[left.position]? = left.state.cursor.peek? := by
    rw [← hlist]
    exact left.state.cursor.getElem?_position
  have hend (h : left.state.cursor.peek? = none) : left.position = tokens.length := by
    rw [← hlist]
    exact Cursor.position_of_peek?_eq_none h
  -- what an error is about is found at the cursor that the call leaves
  have hfound (error : ParseError) (herror : result = .error error) :
      error.FoundAt settings.maxDepth parser.state.cursor left.state.cursor := by
    have hcall := parseProgram_foundAt parser herror
    rwa [hsettings] at hcall
  refine ⟨session_succ calls start, fun expected found herror => ?_, fun expected herror => ?_,
    fun limit location herror => ?_, hahead.depth_eq, fun limit hlimit => ?_⟩
  · cases hfound _ herror with
    | unexpectedToken hpeek => exact hnext.trans hpeek
  · cases hfound _ herror with
    | unexpectedEnd hpeek => exact hend hpeek
  · cases hfound _ herror with
    | tooDeep hlimit hread =>
      have hpos : 0 < left.state.cursor.position := Nat.lt_of_lt_of_le (Nat.succ_pos _) hread
      obtain ⟨token, hplace, hwhere⟩ := Cursor.exists_location hpos
      rw [hlist] at hwhere
      exact ⟨hlimit, hread, token, hplace, hwhere.imp hnext.trans (.imp_left hend)⟩
  · have hpeak := hahead.peak_le_max limit hlimit
    rwa [show start.state.peak = 0 from rfl, Nat.zero_max] at hpeak

end Parser

end MiniC
