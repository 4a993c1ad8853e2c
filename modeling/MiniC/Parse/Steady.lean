import MiniC.Parse.Parser

/-!
# What every rule keeps

However a rule ends, with a value or with an error, the state it ends in lies ahead of the state
it started from: the cursor moves in the same token list and only forward, the nesting depth is
what it was, and the peak of the nesting depth has grown by nothing that the cap forbids.

## The architecture

* **`State.Ahead`** is this relation between two states; it composes (`Ahead.trans`).
* **`Steady`** says that a rule always ends ahead of its start. Sequences (`Steady.bind`), nested
  rules (`Steady.nested`) and chains carry it over from their parts to the whole.
* **`steady_program`** is the result for a whole program, and **`parseProgram_ahead`** for a call
  of a parser. In particular no failed call leaves any nesting behind.
-/

namespace MiniC

namespace Rule

variable {α β : Type} {cap : Option Nat}

/-! ## States ahead of a state -/

/-- A state that a run under a cap can lead to. -/
structure State.Ahead (cap : Option Nat) (s t : State) : Prop where
  toList_eq : t.cursor.toList = s.cursor.toList
  position_le : s.cursor.position ≤ t.cursor.position
  depth_eq : t.depth = s.depth
  peak_le : s.peak ≤ t.peak
  peak_le_max : ∀ limit ∈ cap, t.peak ≤ max s.peak limit

theorem State.Ahead.refl (s : State) : State.Ahead cap s s :=
  ⟨rfl, Nat.le_refl _, rfl, Nat.le_refl _, fun _ _ => Nat.le_max_left _ _⟩

/-- A run and another one from where it has ended lead ahead together. The cap bounds the peak of
the whole, as it bounds the peaks of both. -/
theorem State.Ahead.trans {s t u : State} (hst : State.Ahead cap s t)
    (htu : State.Ahead cap t u) : State.Ahead cap s u where
  toList_eq := htu.toList_eq.trans hst.toList_eq
  position_le := Nat.le_trans hst.position_le htu.position_le
  depth_eq := htu.depth_eq.trans hst.depth_eq
  peak_le := Nat.le_trans hst.peak_le htu.peak_le
  peak_le_max limit hlimit := by
    have hs := hst.peak_le_max limit hlimit
    have ht := htu.peak_le_max limit hlimit
    omega

/-- A state ahead has no more tokens to come. -/
theorem State.Ahead.remaining_le {s t : State} (h : State.Ahead cap s t) :
    t.cursor.remaining ≤ s.cursor.remaining := by
  have hs := s.cursor.position_add_remaining
  have ht := t.cursor.position_add_remaining
  rw [h.toList_eq] at ht
  have hposition := h.position_le
  omega

/-- However far ahead, the cursor stays within its list. -/
theorem State.Ahead.position_le_length {s t : State} (h : State.Ahead cap s t) :
    t.cursor.position ≤ s.cursor.toList.length := by
  rw [← h.toList_eq, ← t.cursor.position_add_remaining]
  exact Nat.le_add_right _ _

theorem State.ahead_advance (s : State) : State.Ahead cap s s.advance where
  toList_eq := Cursor.toList_advance s.cursor
  position_le := Cursor.position_le_advance s.cursor
  depth_eq := rfl
  peak_le := Nat.le_refl _
  peak_le_max _ _ := Nat.le_max_left _ _

/-- What is ahead one level deeper is ahead again once that level is left. -/
theorem State.Ahead.leave {s t : State} (hcap : ∀ limit ∈ cap, s.depth < limit)
    (h : State.Ahead cap s.enter t) : State.Ahead cap s t.leave where
  toList_eq := h.toList_eq
  position_le := h.position_le
  depth_eq := by
    have hdepth : t.depth = s.depth + 1 := h.depth_eq
    show t.depth - 1 = s.depth
    omega
  peak_le := by
    have hpeak : max s.peak (s.depth + 1) ≤ t.peak := h.peak_le
    show s.peak ≤ t.peak
    omega
  peak_le_max limit hlimit := by
    have hdepth := hcap limit hlimit
    have hpeak : t.peak ≤ max (max s.peak (s.depth + 1)) limit := h.peak_le_max limit hlimit
    show t.peak ≤ max s.peak limit
    omega

/-! ## Steady rules -/

def Steady (cap : Option Nat) (rule : Rule α) : Prop :=
  ∀ s, State.Ahead cap s (rule.run s).state

theorem steady_pure (a : α) : Steady cap (pure a : Rule α) := fun s => .refl s

theorem steady_fail (error : ParseError) : Steady cap (fail error : Rule α) := fun s => .refl s

theorem steady_cursor : Steady cap cursor := fun s => .refl s

theorem steady_peek? : Steady cap peek? := fun s => .refl s

theorem steady_advance : Steady cap advance := fun s => s.ahead_advance

/-- A sequence is steady if its parts are. Where the first part fails, its state is the last one. -/
theorem Steady.bind {rule : Rule α} {next : α → Rule β} (hrule : Steady cap rule)
    (hnext : ∀ a, Steady cap (next a)) : Steady cap (rule >>= next) := by
  intro s
  have hfirst := hrule s
  rw [run_bind]
  cases hrun : rule.run s with
  | ok a t =>
    rw [hrun] at hfirst
    exact hfirst.trans (hnext a t)
  | error error t =>
    rw [hrun] at hfirst
    exact hfirst

/-- Looking for a token takes it or leaves the state as it is. -/
theorem steady_expect (kind : Token.Kind) (expected : Expectation) :
    Steady cap (expect kind expected) := by
  intro s
  rw [run_expect]
  split
  · exact .refl s
  · split
    · exact s.ahead_advance
    · exact .refl s

theorem steady_operator? (table : Token.Kind → Option BinaryOp) :
    Steady cap (operator? table) := by
  intro s
  rw [run_operator?]
  split
  · exact .refl s
  · split
    · exact .refl s
    · exact s.ahead_advance

/-- A nested rule is steady if the rule itself is: the level that was entered is left in the end,
and it is entered only if the cap has room for it. -/
theorem Steady.nested {rule : Rule α} (h : Steady cap rule) : Steady cap (nested cap rule) := by
  intro s
  rcases room_or_reached cap s.depth with hroom | ⟨limit, rfl, hle⟩
  · rw [state_nested_of_lt s hroom]
    exact (h s.enter).leave hroom
  · -- The cap is reached, so the rule does not run at all.
    rw [run_nested_of_le s hle]
    exact .refl s

/-! ## The rules of the grammar -/

/-- A chain is steady if its operand is, by induction on the bound of the chain. -/
theorem steady_chain (table : Token.Kind → Option BinaryOp) {operand : Rule Expr}
    (hoperand : Steady cap operand) (left : Expr) : Steady cap (chain table operand left) := by
  have hwithin (bound : Nat) (left : Expr) :
      Steady cap (chainWithin table operand bound left) := by
    induction bound generalizing left with
    | zero => exact steady_pure left
    | succ bound ih =>
      refine (steady_operator? table).bind fun found => ?_
      cases found with
      | none => exact steady_pure left
      | some pair => exact hoperand.bind fun right => ih _
  exact steady_cursor.bind fun c => hwithin c.remaining left

theorem steady_productOperand (ops : Operators) {factor term : Rule Expr}
    (hfactor : Steady cap factor) (hterm : Steady cap term) :
    Steady cap (productOperand ops cap factor term) := by
  unfold productOperand
  cases ops.grouping
  · exact hfactor
  · exact hterm.nested

/-- A term is steady within every bound, for its right operands are terms within a smaller one. -/
theorem steady_termWithin (ops : Operators) {factor : Rule Expr} (hfactor : Steady cap factor)
    (bound : Nat) : Steady cap (termWithin ops cap factor bound) := by
  induction bound with
  | zero => exact hfactor
  | succ bound ih =>
    exact hfactor.bind (steady_chain _ (steady_productOperand ops hfactor ih))

theorem steady_sumOf (ops : Operators) {term : Rule Expr} (hterm : Steady cap term) :
    Steady cap (sumOf ops cap term) :=
  (hterm.bind (steady_chain _ hterm)).nested

/-- A factor is steady if the rules for what may stand inside of it are. There is one case for each
sort of token that may come first. -/
theorem steady_factorOf {expression factor : Rule Expr} (hexpression : Steady cap expression)
    (hfactor : Steady cap factor) : Steady cap (factorOf cap expression factor) := by
  refine Steady.nested (steady_peek?.bind fun found => ?_)
  cases found with
  | none => exact steady_fail _
  | some token =>
    dsimp only
    split
    · exact steady_advance.bind fun _ => hexpression.bind fun inner =>
        (steady_expect _ _).bind fun _ => steady_pure inner
    · exact steady_advance.bind fun _ => steady_pure _
    · split
      · exact steady_advance.bind fun _ => hfactor.bind fun _ => steady_pure _
      · exact steady_fail _

/-- A factor is steady within every bound. Within bound zero it does nothing but fail, one level
deeper. -/
theorem steady_factorWithin (ops : Operators) (bound : Nat) :
    Steady cap (factorWithin ops cap bound) := by
  induction bound with
  | zero => exact (steady_fail _).nested
  | succ bound ih =>
    exact steady_factorOf (steady_sumOf ops (steady_termWithin ops ih bound)) ih

theorem steady_factor (ops : Operators) : Steady cap (factor ops cap) :=
  steady_cursor.bind fun c => steady_factorWithin ops c.remaining

theorem steady_term (ops : Operators) : Steady cap (term ops cap) :=
  steady_cursor.bind fun c => steady_termWithin ops (steady_factor ops) c.remaining

theorem steady_expression (ops : Operators) : Steady cap (expression ops cap) :=
  steady_sumOf ops (steady_term ops)

/-- A function is a row of expected tokens around an expression. -/
theorem steady_function (ops : Operators) : Steady cap (function ops cap) := by
  have hstatement : Steady cap (statement ops cap) :=
    (steady_expect _ _).bind fun _ => (steady_expression ops).bind fun _ =>
      (steady_expect _ _).bind fun _ => steady_pure _
  exact (steady_expect _ _).bind fun _ => (steady_expect _ _).bind fun _ =>
    (steady_expect _ _).bind fun _ => (steady_expect _ _).bind fun _ =>
    (steady_expect _ _).bind fun _ => hstatement.bind fun _ =>
    (steady_expect _ _).bind fun _ => steady_pure _

theorem steady_endOfInput : Steady cap endOfInput := by
  refine steady_peek?.bind fun found => ?_
  cases found with
  | none => exact steady_pure ()
  | some token => exact steady_fail _

/-- **The rule for programs is steady**, in either mode. -/
theorem steady_program (ops : Operators) (strict : Bool) :
    Steady cap (program ops cap strict) := by
  refine steady_cursor.bind fun c => ?_
  split
  · exact steady_fail _
  · refine (steady_function ops).bind fun f => ?_
    cases strict
    · exact steady_pure _
    · exact steady_endOfInput.bind fun _ => steady_pure _

end Rule

namespace Parser

/-- A call of a parser leads ahead, and leaves the settings alone. -/
theorem parseProgram_ahead (parser : Parser) :
    parser.parseProgram.2.settings = parser.settings ∧
      Rule.State.Ahead parser.settings.maxDepth parser.state parser.parseProgram.2.state := by
  have hsteady : Rule.State.Ahead parser.settings.maxDepth parser.state
      ((rule parser.settings).run parser.state).state :=
    Rule.steady_program parser.settings.dialect.operators parser.settings.strict parser.state
  unfold parseProgram
  split <;>
    next hrun =>
      rw [hrun] at hsteady
      exact ⟨rfl, hsteady⟩

end Parser

end MiniC
