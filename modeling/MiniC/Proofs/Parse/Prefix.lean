import MiniC.Proofs.Grammar.Simulation
import MiniC.Proofs.Parse.Incremental
import MiniC.Proofs.Parse.Program

/-!
# Only the tokens that were read decide

A fresh parser is given a token list, and then shorter and longer lists that begin alike. Where it
stops within the shorter list, it stops in the same way in every longer one. Where it uses up the
shorter list, it has either come to the end of a function or to the cap, and a longer list changes
nothing about that; or it waits for more tokens and says so. This holds under every cap, in both
dialects and in both modes.

## The architecture

* **`Prolongs`** says how the outcome in a longer list depends on the outcome in a shorter one, and
  **`prolongs_outcome`** that it always does: the function rule is incremental, and the rest of a
  call is a look at the next token.
* **`outcome_take_of_lt`**, **`cutAt_outcome_take`** and **`outcome_take_of_gt`** compare a list
  with what it begins with: before, at and behind the place where the parser stops.
* **`outcome_decided_by_tokens_read`** collects what follows for all beginnings and all lists that
  begin alike.
-/

namespace MiniC

open Grammar (Automaton)

variable {dialect : Dialect} {settings : Settings} {tokens front more other : List Token}

namespace Grammar.Automaton

/-- Within a program the automaton never waits for the end of the input. -/
theorem expected_ne_endOfInput {state : Automaton} (hne : state ≠ accepted) :
    state.expected ≠ .endOfInput := by
  cases state with
  | accepted => exact absurd rfl hne
  | after parens => cases parens <;> exact nofun
  | _ => exact nofun

end Grammar.Automaton

namespace Rule

/-- Only strict mode looks for the end of the input. -/
theorem expected_ne_endOfInput {cap : Option Nat} {expected : Expectation} {s t : State}
    (hrun : (function dialect.operators cap).run s =
      .error (.missing expected t.cursor.peek?) t) : expected ≠ .endOfInput := by
  have hagrees := follows_function dialect cap (s.cursor.remaining + 1) s (Nat.lt_succ_self _)
  rw [hrun] at hagrees
  obtain ⟨last, -, hne, hstops⟩ := hagrees
  generalize herror : ParseError.missing expected t.cursor.peek? = error at hstops
  have hexpected : error.expected? = some expected := by
    rw [← herror]
    cases t.cursor.peek? <;> rfl
  cases hstops with
  | tooDeep => cases hexpected
  | unexpectedEnd | unexpectedToken =>
    obtain rfl := Option.some.inj hexpected
    exact Automaton.expected_ne_endOfInput hne

/-- A list, and a longer list that begins like it: either both are seen to go on in the same way, or
the shorter one is used up. -/
theorem State.Inside.within_or_at_end {s t : State} (h : s.Inside [] more t)
    (hlist : s.cursor.toList = front) :
    (t.cursor.position = s.cursor.position ∧ s.cursor.position < front.length ∧
      t.cursor.peek? = s.cursor.peek? ∧ t.cursor.location = s.cursor.location) ∨
    (s.cursor.position = front.length ∧ t.cursor.position = front.length ∧
      s.cursor.peek? = none ∧ t.cursor.peek? = more.head?) := by
  have hposition : t.cursor.position = s.cursor.position := h.position_eq
  cases hs : s.cursor.peek? with
  | some token =>
    have ht := h.peek?_eq hs
    refine .inl ⟨hposition, ?_, ht, ?_⟩
    · rw [← hlist]
      exact Cursor.position_lt_of_peek? hs
    · rw [Cursor.location_of_peek? hs, Cursor.location_of_peek? ht]
  | none =>
    have hend : s.cursor.position = front.length := by
      rw [← hlist]
      exact Cursor.position_of_peek?_eq_none hs
    exact .inr ⟨hend, hposition.trans hend, rfl, h.peek?_at_end hs⟩

end Rule

namespace Parser

/-- What a fresh parser makes of a token list, and how many tokens it consumes. -/
def outcome (settings : Settings) (tokens : List Token) : Except ParseError Program × Nat :=
  ((ofTokens settings tokens).parseProgram.1, (ofTokens settings tokens).parseProgram.2.position)

theorem position_outcome_le (settings : Settings) (tokens : List Token) :
    (outcome settings tokens).2 ≤ tokens.length :=
  (parseProgram_ahead (ofTokens settings tokens)).2.position_le_length

/-! ## A list and a longer list -/

/-- How the outcome in a longer list depends on the outcome in the list that it begins with. -/
inductive Prolongs (strict : Bool) (front more : List Token) :
    Except ParseError Program × Nat → Except ParseError Program × Nat → Prop where
  /-- The parser stopped within the shorter list. -/
  | decided {result : Except ParseError Program} {position : Nat}
      (hlt : position < front.length) :
      Prolongs strict front more (result, position) (result, position)
  /-- The shorter list is a program. -/
  | complete {function : FunctionDefinition} :
      Prolongs strict front more (.ok ⟨function⟩, front.length)
        (conclude function (if strict then more.head? else none), front.length)
  /-- At the end of the shorter list the cap was reached. -/
  | tooDeep {limit : Nat} {location location' : Location}
      (hlast : ∀ last ∈ front.getLast?, location = last.location) :
      Prolongs strict front more (.error (.tooDeep limit location), front.length)
        (.error (.tooDeep limit location'), front.length)
  /-- The shorter list ends too early. The next token is the one that was missed, or else the
  error is about that token. -/
  | unfinished {expected : Expectation} {result : Except ParseError Program} {position : Nat}
      (hle : front.length ≤ position)
      (hmissing : position = front.length → ∃ expected, expected ≠ .endOfInput ∧
        result = .error (.missing expected more.head?)) :
      Prolongs strict front more (.error (.unexpectedEnd expected), front.length)
        (result, position)

/-- The rule for functions, on a list of which nothing is consumed yet. -/
def readFunction (settings : Settings) (tokens : List Token) : Rule.Outcome FunctionDefinition :=
  (Rule.function settings.dialect.operators settings.maxDepth).run { cursor := .ofList tokens }

theorem toList_readFunction (settings : Settings) (tokens : List Token) :
    (readFunction settings tokens).state.cursor.toList = tokens := by
  have hahead : Rule.State.Ahead settings.maxDepth _ (readFunction settings tokens).state :=
    Rule.steady_function settings.dialect.operators { cursor := .ofList tokens }
  exact hahead.toList_eq

/-- What a call makes of the outcome of that rule. -/
def finish (strict : Bool) : Rule.Outcome FunctionDefinition → Except ParseError Program × Nat
  | .ok function t =>
    (conclude function (if strict then t.cursor.peek? else none), t.cursor.position)
  | .error error t => (.error error, t.cursor.position)

theorem outcome_nil (settings : Settings) :
    outcome settings [] = (.error (.unexpectedEnd .functionDeclaration), 0) := rfl

/-- A call in a list that is not empty is a run of the rule for functions with what `finish` makes
of it. -/
theorem parseProgram_eq_finish (parser : Parser) (hne : parser.state.cursor.toList ≠ []) :
    (parser.parseProgram.1, parser.parseProgram.2.position) = finish parser.settings.strict
      ((Rule.function parser.settings.dialect.operators parser.settings.maxDepth).run
        parser.state) := by
  rw [parseProgram_eq parser hne]
  split <;> next hrun => rw [hrun]; rfl

theorem outcome_eq_finish (settings : Settings) (hne : tokens ≠ []) :
    outcome settings tokens = finish settings.strict (readFunction settings tokens) :=
  parseProgram_eq_finish (ofTokens settings tokens) hne

/-- `Prolongs` read off the two runs of the rule for functions: one case for each way in which
`GoesOn` relates them. -/
theorem prolongs_finish (settings : Settings) (front more : List Token) :
    Prolongs settings.strict front more (finish settings.strict (readFunction settings front))
      (finish settings.strict (readFunction settings (front ++ more))) := by
  have hgo : Rule.GoesOn False [] more (readFunction settings front)
      (readFunction settings (front ++ more)) :=
    (Rule.incremental_function _ _ _).goesOn ⟨rfl, rfl, rfl⟩ (Nat.lt_succ_self _)
  have hlist := toList_readFunction settings front
  have hexpected {expected : Expectation} {t : Rule.State} (hrun : readFunction settings front =
      .error (.missing expected t.cursor.peek?) t) : expected ≠ .endOfInput :=
    Rule.expected_ne_endOfInput hrun
  generalize readFunction settings front = short at hgo hlist hexpected
  generalize readFunction settings (front ++ more) = long at hgo
  cases hgo with
  | ok hinside =>
    rcases hinside.within_or_at_end hlist with ⟨hposition, hlt, hpeek, -⟩ | ⟨hs, ht, hend, hpeek⟩
    · rw [finish, finish, hposition, hpeek]
      exact .decided hlt
    · rw [finish, finish, hs, ht, hend, hpeek, ite_self]
      exact .complete
  | tooDeep hinside =>
    rcases hinside.within_or_at_end hlist with ⟨hposition, hlt, -, hlocation⟩ | ⟨hs, ht, hend, -⟩
    · rw [finish, finish, hposition, hlocation]
      exact .decided hlt
    · rw [finish, finish, hs, ht]
      refine .tooDeep fun last hlast => Cursor.location_of_getLast? hend ?_
      exact (congrArg List.getLast? hlist).trans hlast
  | missing hinside =>
    have hne := hexpected rfl
    rcases hinside.within_or_at_end hlist with ⟨hposition, hlt, hpeek, -⟩ | ⟨hs, ht, hend, hpeek⟩
    · rw [finish, finish, hposition, hpeek]
      exact .decided hlt
    · rw [finish, finish, hs, ht, hend, hpeek]
      exact .unfinished (Nat.le_refl _) fun _ => ⟨_, hne, rfl⟩
  | @waits expected u _ hend hlater =>
    -- the longer run has a token where the shorter one waits, and moves past it
    have hposition : u.cursor.position = front.length :=
      (Cursor.position_of_peek?_eq_none hend).trans (congrArg List.length hlist)
    have hlong : (finish settings.strict long).2 = long.state.cursor.position := by
      cases long <;> rfl
    rw [List.length_nil, Nat.add_zero, hposition, ← hlong] at hlater
    rw [finish, hposition]
    exact .unfinished (Nat.le_of_lt hlater) fun heq =>
      absurd hlater (Nat.not_lt.2 (Nat.le_of_eq heq))
  | stops hgreedy => exact hgreedy.elim

/-- The outcome in a list depends on the outcome in each list that it begins with. -/
theorem prolongs_outcome (settings : Settings) (front more : List Token) :
    Prolongs settings.strict front more (outcome settings front)
      (outcome settings (front ++ more)) := by
  have hprolongs := prolongs_finish settings front more
  cases front with
  | cons first front =>
    rw [outcome_eq_finish settings (List.cons_ne_nil first front),
      outcome_eq_finish settings (show first :: front ++ more ≠ [] from nofun)]
    exact hprolongs
  | nil =>
    rw [outcome_nil]
    cases more with
    | nil => exact .unfinished (Nat.le_refl _) fun _ => ⟨.functionDeclaration, nofun, rfl⟩
    | cons token more =>
      -- an empty list is refused in words of its own, but it is not finished either
      rw [outcome_eq_finish settings (show [] ++ token :: more ≠ [] from nofun)]
      generalize finish settings.strict (readFunction settings ([] ++ token :: more)) = long
        at hprolongs ⊢
      cases hprolongs with
      | decided hlt => exact absurd hlt (Nat.not_lt_zero _)
      | unfinished hle hmissing => exact .unfinished hle hmissing

/-! ## Beginnings of a list -/

/-- A list and what it begins with. -/
theorem prolongs_take (settings : Settings) (tokens : List Token) (k : Nat) :
    Prolongs settings.strict (tokens.take k) (tokens.drop k) (outcome settings (tokens.take k))
      (outcome settings tokens) := by
  have hprolongs := prolongs_outcome settings (tokens.take k) (tokens.drop k)
  rw [List.take_append_drop] at hprolongs
  exact hprolongs

/-- Before the place where the parser stops, every list that it begins with ends too early. -/
theorem outcome_take_of_lt {k : Nat} (hk : k < (outcome settings tokens).2) :
    ∃ expected, outcome settings (tokens.take k) = (.error (.unexpectedEnd expected), k) := by
  have hle := position_outcome_le settings tokens
  have hlength : (tokens.take k).length = k := by
    rw [List.length_take]
    omega
  have hprolongs := prolongs_take settings tokens k
  rw [← hlength] at hk
  generalize outcome settings (tokens.take k) = short at hprolongs
  generalize outcome settings tokens = long at hprolongs hk
  cases hprolongs with
  | decided hlt => exact absurd hk (Nat.lt_asymm hlt)
  | complete | tooDeep => exact absurd hk (Nat.lt_irrefl _)
  | @unfinished expected => exact ⟨expected, by rw [hlength]⟩

/-- Behind it nothing matters. -/
theorem outcome_take_of_gt {k : Nat} (hk : (outcome settings tokens).2 < k)
    (hle : k ≤ tokens.length) :
    outcome settings (tokens.take k) = outcome settings tokens := by
  have hlength : (tokens.take k).length = k := List.length_take_of_le hle
  have hprolongs := prolongs_take settings tokens k
  rw [← hlength] at hk
  generalize outcome settings (tokens.take k) = short at hprolongs
  generalize outcome settings tokens = long at hprolongs hk
  cases hprolongs with
  | decided => rfl
  | complete | tooDeep => exact absurd hk (Nat.lt_irrefl _)
  | unfinished hge => exact absurd hk (Nat.not_lt.2 hge)

/-- The outcome in the tokens that were consumed, given the result in the whole list. A function is
accepted, also where strict mode has found a token behind it; any other unexpected token is now
missing; and the cap is reached behind the last token. -/
def CutAt (tokens : List Token) (position : Nat) (cut : Except ParseError Program × Nat) :
    Except ParseError Program → Prop
  | .ok program => cut = (.ok program, position)
  | .error (.unexpectedToken .endOfInput _) => ∃ program, cut = (.ok program, position)
  | .error (.unexpectedToken _ _) | .error (.unexpectedEnd _) =>
    ∃ expected, cut = (.error (.unexpectedEnd expected), position)
  | .error (.tooDeep limit _) =>
    ∃ last, 0 < position ∧ tokens[position - 1]? = some last ∧
      cut = (.error (.tooDeep limit last.location), position)

/-- An error of the shorter list and an expectation that the longer one disappoints are a case of
`CutAt`, if that expectation is not about the end of the input. -/
theorem cutAt_missing {position : Nat} {expected expected' : Expectation}
    (hne : expected' ≠ .endOfInput) (next : Option Token) :
    CutAt tokens position (.error (.unexpectedEnd expected), position)
      (.error (.missing expected' next)) := by
  cases next with
  | none => exact ⟨expected, rfl⟩
  | some token => cases expected' <;> first | exact ⟨expected, rfl⟩ | exact absurd rfl hne

/-- Without tokens there is nothing to say but that a function is missing. -/
theorem ne_nil_of_outcome
    (h : (outcome settings tokens).1 ≠ .error (.unexpectedEnd .functionDeclaration)) :
    tokens ≠ [] := by
  rintro rfl
  exact h (congrArg Prod.fst (outcome_nil settings))

/-- At the place where the parser stops. -/
theorem cutAt_outcome_take (settings : Settings) (tokens : List Token) :
    CutAt tokens (outcome settings tokens).2
      (outcome settings (tokens.take (outcome settings tokens).2))
      (outcome settings tokens).1 := by
  have hle := position_outcome_le settings tokens
  have hprolongs := prolongs_take settings tokens (outcome settings tokens).2
  generalize outcome settings tokens = long at hle hprolongs ⊢
  obtain ⟨result, position⟩ := long
  dsimp only at hle hprolongs ⊢
  have hlength : (tokens.take position).length = position := List.length_take_of_le hle
  have hlast (hpos : 0 < position) : (tokens.take position).getLast? = tokens[position - 1]? := by
    rw [List.getLast?_eq_getElem?, hlength, List.getElem?_take_of_lt (by omega)]
  generalize tokens.take position = front at hprolongs hlength hlast ⊢
  have hne := @ne_nil_of_outcome settings front
  generalize outcome settings front = cut at hprolongs hne ⊢
  cases hprolongs with
  | decided hlt => exact absurd hlt (Nat.not_lt.2 (Nat.le_of_eq hlength))
  | @complete function =>
    cases (if settings.strict then (tokens.drop front.length).head? else none) with
    | none => rfl
    | some token => exact ⟨⟨function⟩, rfl⟩
  | tooDeep hlocation =>
    -- the cap cannot be reached in front of the first token
    have hpos : 0 < front.length := List.length_pos_iff.2 (hne nofun)
    have hget : tokens[front.length - 1]? = some tokens[front.length - 1] :=
      List.getElem?_eq_getElem (by omega)
    refine ⟨tokens[front.length - 1], hpos, hget, ?_⟩
    rw [hlocation _ ((hlast hpos).trans hget)]
  | unfinished hge hmissing =>
    subst hlength
    obtain ⟨expected, hne, rfl⟩ := hmissing rfl
    exact cutAt_missing hne _

/-- A list in which the parser stops at a token can be changed behind that token. -/
theorem outcome_append_of_lt (h : (outcome settings front).2 < front.length)
    (more : List Token) : outcome settings (front ++ more) = outcome settings front := by
  have hprolongs := prolongs_outcome settings front more
  generalize outcome settings (front ++ more) = long at hprolongs ⊢
  generalize outcome settings front = short at hprolongs h ⊢
  cases hprolongs with
  | decided => rfl
  | complete | tooDeep | unfinished => exact absurd h (Nat.lt_irrefl _)

/-- Behind a list that is a program only strict mode looks at a token. -/
theorem outcome_append {program : Program}
    (h : outcome settings front = (.ok program, front.length)) (more : List Token) :
    outcome settings (front ++ more) =
      (conclude program.function (if settings.strict then more.head? else none), front.length) := by
  have hprolongs := prolongs_outcome settings front more
  rw [h] at hprolongs
  generalize outcome settings (front ++ more) = long at hprolongs ⊢
  cases hprolongs with
  | decided hlt => exact absurd hlt (Nat.lt_irrefl _)
  | complete => rfl

/-- A list that is a program can be followed by anything, outside of strict mode. -/
theorem outcome_append_of_ok {program : Program} (hstrict : settings.strict = false)
    (h : outcome settings front = (.ok program, front.length)) (more : List Token) :
    outcome settings (front ++ more) = (.ok program, front.length) := by
  rw [outcome_append h, hstrict]
  rfl

/-- **Only the tokens that were read decide.** Every beginning of a list that is shorter than what
the parser consumes ends too early, and of the tokens behind the one it stops at none has a part in
the outcome. Nor has that token itself, if a function was read and strict mode is off. -/
theorem outcome_decided_by_tokens_read (settings : Settings) (tokens : List Token) :
    let position := (outcome settings tokens).2
    position ≤ tokens.length ∧
    (∀ k < position, ∃ expected,
      outcome settings (tokens.take k) = (.error (.unexpectedEnd expected), k)) ∧
    CutAt tokens position (outcome settings (tokens.take position)) (outcome settings tokens).1 ∧
    (∀ k, position < k → k ≤ tokens.length →
      outcome settings (tokens.take k) = outcome settings tokens) ∧
    (position < tokens.length → ∀ other, tokens.take (position + 1) <+: other →
      outcome settings other = outcome settings tokens) ∧
    (∀ program, (outcome settings tokens).1 = .ok program → settings.strict = false →
      ∀ other, tokens.take position <+: other →
        outcome settings other = outcome settings tokens) := by
  intro position
  have hle : position ≤ tokens.length := position_outcome_le settings tokens
  refine ⟨hle, fun _ => outcome_take_of_lt, cutAt_outcome_take settings tokens,
    fun _ => outcome_take_of_gt, ?_, ?_⟩
  · -- both lists begin with the tokens up to the one that the parser stops at
    rintro hlt _ ⟨more, rfl⟩
    have hsame : outcome settings (tokens.take (position + 1)) = outcome settings tokens :=
      outcome_take_of_gt (Nat.lt_succ_self position) hlt
    rw [outcome_append_of_lt _ more, hsame]
    rw [hsame, List.length_take_of_le hlt]
    exact Nat.lt_succ_self position
  · rintro program hok hstrict _ ⟨more, rfl⟩
    have hcut := cutAt_outcome_take settings tokens
    rw [hok] at hcut
    have hlength : (tokens.take position).length = position := List.length_take_of_le hle
    have hfront : outcome settings (tokens.take position) =
        (.ok program, (tokens.take position).length) := by
      rw [hlength]
      exact hcut
    rw [outcome_append_of_ok hstrict hfront more, hlength, ← hok]

end Parser

end MiniC
