import MiniC.Parse.Cursor
import MiniC.Tree.Expr

/-!
# Grammar rules

A grammar rule moves a cursor past the tokens it consumes and either yields a part of the tree
or stops with an error; there is no recovery. `Rule` is that effect. The state is kept in both
cases, so the place where an error arose can be read off it.

Besides the cursor the state counts how many nested rules are running. `Rule.nested` runs a rule
one level deeper, unless the cap is reached. On the way in the count goes up, on the way out it
goes down again, after an error too. The state also remembers the greatest count so far.
-/

namespace MiniC

namespace Rule

structure State where
  cursor : Cursor
  /-- The number of nested rules that are running. -/
  depth : Nat := 0
  /-- The greatest depth that was reached so far. -/
  peak : Nat := 0
  deriving DecidableEq, Repr

namespace State

def enter (s : State) : State :=
  { s with depth := s.depth + 1, peak := max s.peak (s.depth + 1) }

def leave (s : State) : State := { s with depth := s.depth - 1 }

def advance (s : State) : State := { s with cursor := s.cursor.advance }

@[simp] theorem cursor_enter (s : State) : s.enter.cursor = s.cursor := rfl

@[simp] theorem cursor_advance (s : State) : s.advance.cursor = s.cursor.advance := rfl

end State

/-- How a rule ends: with a value or with an error, and in a state. -/
inductive Outcome (α : Type) where
  | ok (value : α) (state : State)
  | error (error : ParseError) (state : State)
  deriving DecidableEq, Repr

def Outcome.state {α : Type} : Outcome α → State
  | ok _ state => state
  | error _ state => state

end Rule

/-- A part of the grammar, as an action on a state that may end in an error. -/
structure Rule (α : Type) where
  run : Rule.State → Rule.Outcome α

namespace Rule

variable {α β : Type}

/-- Rules follow one another until one of them stops with an error. -/
instance : Monad Rule where
  pure a := ⟨fun s => .ok a s⟩
  bind rule next :=
    ⟨fun s =>
      match rule.run s with
      | .ok a s => (next a).run s
      | .error error s => .error error s⟩

/-! ## The rules that all others are made of -/

def fail (error : ParseError) : Rule α := ⟨fun s => .error error s⟩

def cursor : Rule Cursor := ⟨fun s => .ok s.cursor s⟩

def advance : Rule Unit := ⟨fun s => .ok () s.advance⟩

def peek? : Rule (Option Token) := return (← cursor).peek?

/-- Consumes a token of a kind, or stops. -/
def expect (kind : Token.Kind) (expected : Expectation) : Rule Token :=
  ⟨fun s =>
    match s.cursor.expect kind expected with
    | (.ok token, cursor) => .ok token { s with cursor }
    | (.error error, cursor) => .error error { s with cursor }⟩

/-- Consumes the next token if it stands for an operator, and yields the operator with the
token's place. -/
def operator? (table : Token.Kind → Option BinaryOp) : Rule (Option (BinaryOp × Location)) := do
  match ← peek? with
  | none => return none
  | some token =>
    match table token.kind with
    | none => return none
    | some op =>
      advance
      return some (op, token.location)

/-- Runs a rule one level deeper. If as many levels as the cap allows are running already, it
stops at the cursor instead, without a look at the next token. -/
def nested (cap : Option Nat) (rule : Rule α) : Rule α :=
  ⟨fun s =>
    match cap.filter (· ≤ s.depth) with
    | some limit => .error (.tooDeep limit s.cursor.location) s
    | none =>
      match rule.run s.enter with
      | .ok a s => .ok a s.leave
      | .error error s => .error error s.leave⟩

/-! ## What the rules do to a state

Run on a state, every rule above is one equation. -/

@[ext] theorem ext {f g : Rule α} (h : ∀ s, f.run s = g.run s) : f = g := by
  obtain ⟨f⟩ := f
  obtain ⟨g⟩ := g
  exact congrArg Rule.mk (funext h)

section Run

variable (s : State)

@[simp] theorem run_pure (a : α) : (pure a : Rule α).run s = .ok a s := rfl

@[simp] theorem run_fail (error : ParseError) :
    (fail error : Rule α).run s = .error error s := rfl

/-- The second rule starts where the first one has ended, unless that one has failed. -/
theorem run_bind (rule : Rule α) (next : α → Rule β) :
    (rule >>= next).run s =
      match rule.run s with
      | .ok a s => (next a).run s
      | .error error s => .error error s := rfl

@[simp] theorem run_peek? : peek?.run s = .ok s.cursor.peek? s := rfl

@[simp] theorem run_advance : advance.run s = .ok () s.advance := rfl

/-- An operator is there if the next token stands for one, and then it is consumed. -/
theorem run_operator? (table : Token.Kind → Option BinaryOp) :
    (operator? table).run s =
      match s.cursor.peek? with
      | none => .ok none s
      | some token =>
        match table token.kind with
        | none => .ok none s
        | some op => .ok (some (op, token.location)) s.advance := by
  rw [operator?, run_bind, run_peek?]
  cases s.cursor.peek? with
  | none => rfl
  | some token =>
    dsimp only
    cases table token.kind <;> rfl

/-- A token is taken if it is of the kind, and otherwise the state stays. -/
theorem run_expect (kind : Token.Kind) (expected : Expectation) :
    (expect kind expected).run s =
      match s.cursor.peek? with
      | none => .error (.unexpectedEnd expected) s
      | some token =>
        if token.kind = kind then .ok token s.advance
        else .error (.unexpectedToken expected token) s := by
  dsimp only [expect, Cursor.expect]
  cases s.cursor.peek? with
  | none => rfl
  | some token =>
    dsimp only
    by_cases h : token.kind = kind
    · rw [if_pos h, if_pos h]
      rfl
    · rw [if_neg h, if_neg h]

/-- At the cap a nested rule stops where it is. -/
theorem run_nested_of_le {limit : Nat} (h : limit ≤ s.depth) (rule : Rule α) :
    (nested (some limit) rule).run s = .error (.tooDeep limit s.cursor.location) s := by
  simp only [nested, Option.filter_some, decide_eq_true h, if_true]

/-- Below the cap, or without one, a nested rule runs one level deeper. -/
theorem run_nested_of_lt {cap : Option Nat} (h : ∀ limit ∈ cap, s.depth < limit)
    (rule : Rule α) :
    (nested cap rule).run s =
      match rule.run s.enter with
      | .ok a s => .ok a s.leave
      | .error error s => .error error s.leave := by
  have hfilter : cap.filter (· ≤ s.depth) = none := by
    rw [Option.filter_eq_none_iff]
    intro limit hlimit
    simpa using h limit hlimit
  simp only [nested, hfilter]

/-- However it ends, a nested rule that ran is left again. -/
theorem state_nested_of_lt {cap : Option Nat} (h : ∀ limit ∈ cap, s.depth < limit)
    (rule : Rule α) : ((nested cap rule).run s).state = (rule.run s.enter).state.leave := by
  rw [run_nested_of_lt s h]
  cases rule.run s.enter <;> rfl

/-- A cap leaves room for one more level, or is reached. -/
theorem room_or_reached (cap : Option Nat) (depth : Nat) :
    (∀ limit ∈ cap, depth < limit) ∨ ∃ limit, cap = some limit ∧ limit ≤ depth := by
  cases cap with
  | none => exact .inl (by simp)
  | some limit =>
    rcases Nat.lt_or_ge depth limit with hlt | hle
    · exact .inl (by simpa using hlt)
    · exact .inr ⟨limit, rfl, hle⟩

end Run

end Rule

end MiniC
