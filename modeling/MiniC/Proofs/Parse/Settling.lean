import MiniC.Proofs.Parse.Session

/-!
# Every session settles

A call either consumes the `int` that a function begins with, or it fails and leaves the parser as
it is. In the second case every later call does the same. In the first case there is one such token
less to come, whether or not the call goes on to succeed. So a parser that is called often enough
comes to rest, and no later than after as many calls as there are `int`s in the list.

## The architecture

* **`moves_or_settled`** is the step: a call moves the parser, or the parser is `Settled`.
* **`begun`** counts the `int`s before a place, and **`le_begun_of_not_settled`** is the run: a
  parser that has not settled has consumed one for each call.
* **`session_settles`** is the result for all calls of a session.
-/

namespace MiniC

variable {settings : Settings} {tokens : List Token} {token : Token} {parser : Parser}

namespace Parser

/-! ## One call -/

/-- A call that does not find the return type of a function leaves the parser as it is. -/
theorem parseProgram_of_kind_ne (hpeek : parser.state.cursor.peek? = some token)
    (hkind : token.kind ≠ .intKeyword) :
    parser.parseProgram = (.error (.unexpectedToken .returnType token), parser) := by
  have hne : parser.state.cursor.toList ≠ [] :=
    List.length_pos_iff.1 (Nat.zero_lt_of_lt (Cursor.position_lt_of_peek? hpeek))
  rw [parseProgram_eq parser hne, Rule.function, Rule.run_bind, Rule.run_expect, hpeek]
  dsimp only
  rw [if_neg hkind]

/-- A fresh parser waits behind the token that a function begins with. -/
theorem outcome_intKeyword (settings : Settings) (hkind : token.kind = .intKeyword) :
    outcome settings [token] = (.error (.unexpectedEnd .functionName), 1) := by
  rw [outcome_eq_finish settings (List.cons_ne_nil token []), readFunction, Rule.function,
    Rule.run_expect_bind rfl hkind, Rule.run_bind, Rule.run_expect]
  rfl

/-- A call that finds a return type consumes it, whatever comes behind. -/
theorem position_lt_parseProgram {rest : List Token} (hdepth : parser.state.depth = 0)
    (hrest : parser.state.cursor.rest = token :: rest) (hkind : token.kind = .intKeyword) :
    parser.position < parser.parseProgram.2.position := by
  obtain ⟨-, hposition⟩ := parseProgram_of_rest parser hdepth (by rw [hrest]; exact nofun)
  have hprolongs : Prolongs _ _ rest _ (outcome parser.settings (token :: rest)) :=
    prolongs_outcome parser.settings [token] rest
  rw [outcome_intKeyword parser.settings hkind] at hprolongs
  rw [hposition, hrest]
  generalize outcome parser.settings (token :: rest) = long at hprolongs ⊢
  cases hprolongs with
  | decided hlt => exact absurd hlt (Nat.lt_irrefl 1)
  | unfinished hle => exact Nat.lt_add_of_pos_right hle

/-- **A call moves the parser, or the parser has settled.** -/
theorem moves_or_settled (hdepth : parser.state.depth = 0) :
    (∃ token, parser.state.cursor.peek? = some token ∧ token.kind = .intKeyword ∧
      parser.position < parser.parseProgram.2.position) ∨ parser.Settled := by
  by_cases hnil : parser.state.cursor.toList = []
  · exact .inr ⟨_, parseProgram_of_nil hnil⟩
  cases hrest : parser.state.cursor.rest with
  | nil => exact .inr ⟨_, parseProgram_at_end parser hnil hrest⟩
  | cons token rest =>
    have hpeek := Rule.State.peek?_of_rest hrest
    by_cases hkind : token.kind = .intKeyword
    · exact .inl ⟨token, hpeek, hkind, position_lt_parseProgram hdepth hrest hkind⟩
    · exact .inr ⟨_, parseProgram_of_kind_ne hpeek hkind⟩

/-- A call that succeeds has read the nine tokens that every program has. -/
theorem position_add_nine_le {program : Program} (h : parser.parseProgram.1 = .ok program) :
    parser.position + 9 ≤ parser.parseProgram.2.position := by
  obtain ⟨read, frames, hderives, hpast, -, -⟩ :=
    Rule.program_eq_ok ((parseProgram_eq_ok_iff parser).1 h)
  have hlength := hderives.nine_le_length
  have hposition : parser.parseProgram.2.position = parser.position + read.length :=
    hpast.position_eq
  omega

/-! ## Sessions -/

/-- All later calls find a settled parser as it was. -/
theorem Settled.afterCalls_of_le {call later : Nat} (h : (afterCalls call parser).Settled)
    (hle : call ≤ later) : afterCalls later parser = afterCalls call parser := by
  obtain ⟨more, rfl⟩ := Nat.exists_eq_add_of_le hle
  rw [afterCalls_add, h.afterCalls_eq]

/-- The number of functions that are begun before a place in a list. -/
def begun (tokens : List Token) (position : Nat) : Nat :=
  (tokens.take position).countP (·.kind = .intKeyword)

theorem begun_le_countP (tokens : List Token) (position : Nat) :
    begun tokens position ≤ tokens.countP (·.kind = .intKeyword) :=
  (List.take_sublist position tokens).countP_le

/-- A move past an `int` begins one more function. -/
theorem begun_lt_begun {position later : Nat} (hget : tokens[position]? = some token)
    (hkind : token.kind = .intKeyword) (hlt : position < later) :
    begun tokens position < begun tokens later := by
  have hnext : begun tokens (position + 1) = begun tokens position + 1 := by
    rw [begun, List.take_add_one, hget, List.countP_append, Option.toList_some,
      List.countP_singleton, if_pos (decide_eq_true hkind)]
    rfl
  have hle : begun tokens (position + 1) ≤ begun tokens later :=
    (List.take_sublist_take_left hlt).countP_le
  omega

/-- A call begins a function, or the parser has settled. -/
theorem begun_lt_or_settled (settings : Settings) (tokens : List Token) (calls : Nat) :
    begun tokens (afterCalls calls (ofTokens settings tokens)).position <
        begun tokens (afterCalls (calls + 1) (ofTokens settings tokens)).position ∨
      (afterCalls calls (ofTokens settings tokens)).Settled := by
  obtain ⟨-, hahead⟩ := afterCalls_ahead calls (ofTokens settings tokens)
  rw [afterCalls_succ]
  obtain ⟨token, hpeek, hkind, hlt⟩ | hsettled := moves_or_settled hahead.depth_eq
  · rw [Cursor.peek?, ← Cursor.drop_position, List.head?_drop, hahead.toList_eq] at hpeek
    exact .inl (begun_lt_begun hpeek hkind hlt)
  · exact .inr hsettled

/-- Only a settled parser stays where it is. -/
theorem settled_iff_position_eq {calls : Nat} :
    (afterCalls calls (ofTokens settings tokens)).Settled ↔
      (afterCalls (calls + 1) (ofTokens settings tokens)).position =
        (afterCalls calls (ofTokens settings tokens)).position := by
  constructor
  · intro hsettled
    rw [hsettled.afterCalls_of_le (Nat.le_succ calls)]
  · intro hstays
    have hcall := begun_lt_or_settled settings tokens calls
    rw [hstays] at hcall
    exact hcall.resolve_left (Nat.lt_irrefl _)

/-- A parser that has not settled has begun a function with each call. -/
theorem le_begun_of_not_settled {calls : Nat}
    (h : ¬ (afterCalls calls (ofTokens settings tokens)).Settled) :
    calls ≤ begun tokens (afterCalls calls (ofTokens settings tokens)).position := by
  induction calls with
  | zero => exact Nat.zero_le _
  | succ calls ih =>
    have hearlier : ¬ (afterCalls calls (ofTokens settings tokens)).Settled := by
      intro hsettled
      rw [hsettled.afterCalls_of_le (Nat.le_succ calls)] at h
      exact h hsettled
    exact Nat.lt_of_le_of_lt (ih hearlier)
      ((begun_lt_or_settled settings tokens calls).resolve_right hearlier)

/-- **Every session settles.** The calls of a parser only move it forward, and never out of its
list. A call that does not move it fails, and so do all later calls, in the same way and at the same
place. Only as many calls can move it as there are `int`s in the list, and a call that succeeds
moves it by nine tokens or more. -/
theorem session_settles (settings : Settings) (tokens : List Token) :
    let start := ofTokens settings tokens
    let after calls := afterCalls calls start
    (∀ calls, ∀ call < calls,
      (session calls start)[call]? = some ((after call).parseProgram.1, after (call + 1))) ∧
    (∀ call later, call ≤ later → (after call).position ≤ (after later).position) ∧
    (∀ call, (after call).position ≤ tokens.length) ∧
    (∀ call, (after (call + 1)).position = (after call).position →
      ∃ error, ∀ later ≥ call, (after later).parseProgram.1 = .error error ∧
        (after (later + 1)).position = (after call).position) ∧
    (∀ call, (after call).position < (after (call + 1)).position →
      call < tokens.countP (·.kind = .intKeyword)) ∧
    (∀ call program, (after call).parseProgram.1 = .ok program →
      (after call).position + 9 ≤ (after (call + 1)).position) := by
  intro start after
  have hsucc (call : Nat) : after (call + 1) = (after call).parseProgram.2 :=
    afterCalls_succ call start
  refine ⟨fun calls call hcall => ?_, fun call later hle => ?_, fun call => ?_,
    fun call hstays => ?_, fun call hmoves => ?_, fun call program hok => ?_⟩
  · rw [hsucc]
    exact getElem?_session hcall start
  · obtain ⟨more, rfl⟩ := Nat.exists_eq_add_of_le hle
    have hadd : after (call + more) = afterCalls more (after call) := afterCalls_add call more start
    rw [hadd]
    exact (afterCalls_ahead more (after call)).2.position_le
  · exact (afterCalls_ahead call start).2.position_le_length
  · -- a call that does not move leaves the parser as it was, so every later one repeats it
    have hsettled : (after call).Settled := settled_iff_position_eq.2 hstays
    obtain ⟨error, hcall⟩ := hsettled
    refine ⟨error, fun later hle => ?_⟩
    have hlater : after later = after call := Settled.afterCalls_of_le ⟨error, hcall⟩ hle
    rw [hsucc, hlater, hcall]
    exact ⟨rfl, rfl⟩
  · -- each call so far has begun with an `int` of its own, and this one has another
    have hnot : ¬ (after call).Settled :=
      fun hsettled => Nat.ne_of_gt hmoves (settled_iff_position_eq.1 hsettled)
    calc call
      _ ≤ begun tokens (after call).position := le_begun_of_not_settled hnot
      _ < begun tokens (after (call + 1)).position :=
        (begun_lt_or_settled settings tokens call).resolve_right hnot
      _ ≤ tokens.countP (·.kind = .intKeyword) := begun_le_countP tokens _
  · rw [hsucc]
    exact position_add_nine_le hok

end Parser

end MiniC
