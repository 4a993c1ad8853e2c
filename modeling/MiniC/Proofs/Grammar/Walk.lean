import MiniC.Grammar.Automaton

/-!
# Walks of the automaton

`Automaton.read` says how reading ends. What lies between is a *walk*: the steps over tokens that
all fit. Walks compose, and reading is a walk followed by reading from the state it leads to, so
the three verdicts each say where the longest walk leads and what stands behind it.

* **`read_of_walk`** takes a walk off the front of a reading.
* **`AcceptsAfter`**, **`SticksAt`** and **`RunsOut`** are the three verdicts in terms of walks;
  each of them decides what reading yields (`AcceptsAfter.read_eq` and so on).
-/

namespace MiniC.Grammar

namespace Automaton

/-- The state that tokens lead to, if all of them fit. -/
def walk (dialect : Dialect) : Automaton → List Token → Option Automaton
  | state, [] => some state
  | state, token :: rest =>
    match step? dialect state token.kind with
    | none => none
    | some next => walk dialect next rest

/-- The program ends behind exactly that many tokens. -/
def AcceptsAfter (dialect : Dialect) (tokens : List Token) (position : Nat) : Prop :=
  position ≤ tokens.length ∧ walk dialect returnType (tokens.take position) = some accepted

/-- All tokens before a position fit, and the token there is the first that does not. -/
def SticksAt (dialect : Dialect) (tokens : List Token) (position : Nat) (state : Automaton)
    (found : Token) : Prop :=
  walk dialect returnType (tokens.take position) = some state ∧ state ≠ accepted ∧
    tokens[position]? = some found ∧ step? dialect state found.kind = none

/-- All tokens fit, and the program is not at its end. -/
def RunsOut (dialect : Dialect) (tokens : List Token) (state : Automaton) : Prop :=
  walk dialect returnType tokens = some state ∧ state ≠ accepted

variable {dialect : Dialect} {state next : Automaton} {token : Token} {tokens rest : List Token}

/-! ## Walks compose -/

theorem walk_cons_of_some (hstep : step? dialect state token.kind = some next) :
    walk dialect state (token :: rest) = walk dialect next rest := by
  rw [walk, hstep]

/-- Two walks in a row are one. -/
theorem walk_append (hwalk : walk dialect state tokens = some next) :
    walk dialect state (tokens ++ rest) = walk dialect next rest := by
  induction tokens generalizing state with
  | nil =>
    obtain rfl : state = next := Option.some.inj hwalk
    rfl
  | cons token tokens ih =>
    rw [walk] at hwalk
    split at hwalk
    next => cases hwalk
    next middle hstep =>
      rw [List.cons_append, walk_cons_of_some hstep]
      exact ih hwalk

theorem step?_accepted (dialect : Dialect) (kind : Token.Kind) :
    step? dialect accepted kind = none := by
  cases kind <;> rfl

/-! ## Reading, by walks -/

theorem read_cons_of_some (hstep : step? dialect state token.kind = some next) :
    read dialect state (token :: rest) =
      ((read dialect next rest).1, (read dialect next rest).2 + 1) := by
  have hne : state ≠ accepted := by
    rintro rfl
    rw [step?_accepted] at hstep
    cases hstep
  rw [read, hstep]
  exact hne

/-- **A walk comes off the front of a reading.** The verdict is that of the state it leads to, and
the tokens it goes over are counted. -/
theorem read_of_walk (hwalk : walk dialect state tokens = some next) (rest : List Token) :
    read dialect state (tokens ++ rest) =
      ((read dialect next rest).1, (read dialect next rest).2 + tokens.length) := by
  induction tokens generalizing state with
  | nil =>
    obtain rfl : state = next := Option.some.inj hwalk
    rfl
  | cons token tokens ih =>
    rw [walk] at hwalk
    split at hwalk
    next => cases hwalk
    next middle hstep =>
      rw [List.cons_append, read_cons_of_some hstep, ih hwalk, List.length_cons, Nat.add_assoc]

theorem read_accepted (dialect : Dialect) (tokens : List Token) :
    read dialect accepted tokens = (.accepted, 0) := by
  unfold read
  rfl

theorem read_nil (hne : state ≠ accepted) :
    read dialect state [] = (.exhausted state.expected, 0) := by
  cases state <;> first | rfl | exact absurd rfl hne

/-- At a token that does not fit, reading stops and names what the state was waiting for. -/
theorem read_cons_of_none (hne : state ≠ accepted)
    (hstep : step? dialect state token.kind = none) :
    read dialect state (token :: rest) = (.stuck state.expected token, 0) := by
  rw [read, hstep]
  exact hne

/-- Reading accepts where the walk to the end of the program says so, whatever follows. -/
theorem AcceptsAfter.read_eq {position : Nat} (h : AcceptsAfter dialect tokens position) :
    read dialect returnType tokens = (.accepted, position) := by
  obtain ⟨hle, hwalk⟩ := h
  rw [← List.take_append_drop position tokens, read_of_walk hwalk, read_accepted,
    List.length_take, Nat.min_eq_left hle, Nat.zero_add]

/-- Reading is stuck at the token that no walk goes over. -/
theorem SticksAt.read_eq {position : Nat} {found : Token}
    (h : SticksAt dialect tokens position state found) :
    read dialect returnType tokens = (.stuck state.expected found, position) := by
  obtain ⟨hwalk, hne, hfound, hstep⟩ := h
  obtain ⟨hlt, hget⟩ := List.getElem?_eq_some_iff.1 hfound
  -- behind the walk the first token is the one that does not fit
  have hread := read_of_walk hwalk (tokens.drop position)
  rw [List.take_append_drop, List.drop_eq_getElem_cons hlt, hget, read_cons_of_none hne hstep,
    List.length_take, Nat.min_eq_left (Nat.le_of_lt hlt), Nat.zero_add] at hread
  exact hread

/-- Reading is exhausted where the walk over all tokens ends within a program. -/
theorem RunsOut.read_eq (h : RunsOut dialect tokens state) :
    read dialect returnType tokens = (.exhausted state.expected, tokens.length) := by
  obtain ⟨hwalk, hne⟩ := h
  have hread := read_of_walk hwalk []
  rw [List.append_nil, read_nil hne, Nat.zero_add] at hread
  exact hread

end Automaton

end MiniC.Grammar
