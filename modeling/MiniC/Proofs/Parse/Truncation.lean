import MiniC.Parse.Steady

/-!
# A tighter cap cuts a run off

Run the same rule twice from the same state, under a limit on the nesting and under a cap that is no
tighter. As long as neither meets its bound the two runs do the same, step by step. So the tighter
one either ends in exactly the same way, or it is cut off with an error: no later in the token list
than the other one ends, and only if that one goes deeper than the limit.

## The architecture

* **`Cut`** is this relation between two outcomes, and **`Truncates`** between two rules.
* **`Truncates.bind`** needs that a cut run stays cut. Whatever the looser run does afterwards leads
  ahead, so `Truncates` says of the looser rule that it is steady, besides what it says of both.
* **`Truncates.nested`** is the one place where the two runs part.
* **`truncates_program`** is the result for a whole program, by the recursion of the rules.
-/

namespace MiniC

namespace Rule

variable {α β : Type} {limit : Nat} {cap : Option Nat}

/-! ## Two outcomes, two rules -/

/-- An outcome under a limit, beside the outcome under a looser cap. -/
inductive Cut (limit : Nat) : Outcome α → Outcome α → Prop where
  | same (outcome : Outcome α) : Cut limit outcome outcome
  | short {location : Location} {s : State} {outcome : Outcome α}
      (hposition : s.cursor.position ≤ outcome.state.cursor.position)
      (hdeeper : limit < outcome.state.peak) :
      Cut limit (.error (.tooDeep limit location) s) outcome

/-- From every state that the limit admits the first rule does what the second one does, or is cut
off; and the second one is steady under its own cap. -/
structure Truncates (limit : Nat) (cap : Option Nat) (tight loose : Rule α) : Prop where
  cut : ∀ s : State, s.depth ≤ limit → Cut limit (tight.run s) (loose.run s)
  steady : Steady cap loose

/-- A steady rule that does not ask for the cap does the same under every limit. -/
theorem Truncates.refl {rule : Rule α} (h : Steady cap rule) : Truncates limit cap rule rule :=
  ⟨fun s _ => .same (rule.run s), h⟩

/-- What a cut run is compared with may go on. -/
theorem Cut.short_of_ahead {location : Location} {s t : State} {outcome : Outcome α}
    (hposition : s.cursor.position ≤ t.cursor.position) (hdeeper : limit < t.peak)
    (hahead : State.Ahead cap t outcome.state) :
    Cut limit (.error (.tooDeep limit location) s) outcome :=
  .short (Nat.le_trans hposition hahead.position_le) (Nat.lt_of_lt_of_le hdeeper hahead.peak_le)

/-- Rules in a row: a run that is cut off in the first part stays cut, for whatever the looser run
does after it leads ahead. -/
theorem Truncates.bind {tight loose : Rule α} {next next' : α → Rule β}
    (hrule : Truncates limit cap tight loose)
    (hnext : ∀ a, Truncates limit cap (next a) (next' a)) :
    Truncates limit cap (tight >>= next) (loose >>= next') where
  steady := hrule.steady.bind fun a => (hnext a).steady
  cut s hs := by
    have hcut := hrule.cut s hs
    have hahead := hrule.steady s
    rw [run_bind, run_bind]
    generalize tight.run s = outcome at hcut
    generalize loose.run s = outcome' at hcut hahead
    cases hcut with
    | same =>
      cases outcome with
      | ok a t =>
        -- the first part leaves the depth it found, so the second starts below the limit too
        have hdepth : t.depth = s.depth := hahead.depth_eq
        exact (hnext a).cut t (by omega)
      | error error t => exact .same _
    | short hposition hdeeper =>
      cases outcome' with
      | ok a t => exact .short_of_ahead hposition hdeeper ((hnext a).steady t)
      | error error t => exact .short hposition hdeeper

/-- A nested rule that runs at all goes one level deeper. -/
theorem lt_peak_nested {rule : Rule α} {s : State} (h : Steady cap (nested cap rule))
    (hroom : ∀ limit ∈ cap, s.depth < limit) :
    s.depth < ((nested cap rule).run s).state.peak := by
  -- had the peak been at this level before, entering the rule would not have shown
  let t : State := { s with peak := max s.peak (s.depth + 1) }
  have henter : t.enter = s.enter := by
    show State.mk _ _ (max (max s.peak (s.depth + 1)) (s.depth + 1)) = State.mk _ _ _
    rw [Nat.max_assoc, Nat.max_self]
  have hrun : (nested cap rule).run t = (nested cap rule).run s := by
    rw [run_nested_of_lt t hroom, run_nested_of_lt s hroom, henter]
  have hpeak : max s.peak (s.depth + 1) ≤ ((nested cap rule).run t).state.peak := (h t).peak_le
  rw [hrun] at hpeak
  omega

/-- **Where the two runs part.** At the limit the tighter run stops, while the looser one goes one
level deeper and so beyond the limit. -/
theorem Truncates.nested {tight loose : Rule α} (h : Truncates limit cap tight loose)
    (hcap : ∀ larger ∈ cap, limit ≤ larger) :
    Truncates limit cap (nested (some limit) tight) (nested cap loose) where
  steady := h.steady.nested
  cut s hs := by
    rcases Nat.lt_or_ge s.depth limit with hlt | hge
    · -- below the limit both rules run
      have hroom : ∀ larger ∈ cap, s.depth < larger :=
        fun larger hlarger => Nat.lt_of_lt_of_le hlt (hcap larger hlarger)
      have hinner := h.cut s.enter hlt
      rw [run_nested_of_lt s (by simpa using hlt), run_nested_of_lt s hroom]
      generalize tight.run s.enter = outcome at hinner
      generalize loose.run s.enter = outcome' at hinner
      cases hinner with
      | same => exact .same _
      | short hposition hdeeper => cases outcome' <;> exact .short hposition hdeeper
    · -- at the limit the tighter rule stops, and the looser one goes on or stops as well
      rw [run_nested_of_le s hge]
      rcases room_or_reached cap s.depth with hroom | ⟨larger, rfl, hle⟩
      · have hdeeper := lt_peak_nested h.steady.nested hroom
        exact .short (h.steady.nested s).position_le (Nat.lt_of_le_of_lt hge hdeeper)
      · have hlimit := hcap larger rfl
        obtain rfl : larger = limit := by omega
        rw [run_nested_of_le s hge]
        exact .same _

/-! ## The rules of the grammar -/

section Rules

variable (hcap : ∀ larger ∈ cap, limit ≤ larger) (ops : Operators)
  {factor factor' term term' operand operand' expression expression' : Rule Expr}

/-- A chain is cut off where one of its operands is. -/
theorem truncates_chain (table : Token.Kind → Option BinaryOp)
    (hoperand : Truncates limit cap operand operand') (left : Expr) :
    Truncates limit cap (chain table operand left) (chain table operand' left) := by
  have hwithin (bound : Nat) (left : Expr) :
      Truncates limit cap (chainWithin table operand bound left)
        (chainWithin table operand' bound left) := by
    induction bound generalizing left with
    | zero => exact .refl (steady_pure left)
    | succ bound ih =>
      refine (Truncates.refl (steady_operator? table)).bind fun found => ?_
      cases found with
      | none => exact .refl (steady_pure left)
      | some pair => exact hoperand.bind fun right => ih _
  exact (Truncates.refl steady_cursor).bind fun c => hwithin c.remaining left

include hcap

theorem truncates_productOperand (hfactor : Truncates limit cap factor factor')
    (hterm : Truncates limit cap term term') :
    Truncates limit cap (productOperand ops (some limit) factor term)
      (productOperand ops cap factor' term') := by
  unfold productOperand
  cases ops.grouping
  · exact hfactor
  · exact hterm.nested hcap

theorem truncates_termWithin (hfactor : Truncates limit cap factor factor') (bound : Nat) :
    Truncates limit cap (termWithin ops (some limit) factor bound)
      (termWithin ops cap factor' bound) := by
  induction bound with
  | zero => exact hfactor
  | succ bound ih =>
    exact hfactor.bind (truncates_chain _ (truncates_productOperand hcap ops hfactor ih))

theorem truncates_sumOf (hterm : Truncates limit cap term term') :
    Truncates limit cap (sumOf ops (some limit) term) (sumOf ops cap term') :=
  (hterm.bind (truncates_chain _ hterm)).nested hcap

/-- Factors, with a case for each sort of token that may come first. -/
theorem truncates_factorOf (hexpression : Truncates limit cap expression expression')
    (hfactor : Truncates limit cap factor factor') :
    Truncates limit cap (factorOf (some limit) expression factor)
      (factorOf cap expression' factor') := by
  refine ((Truncates.refl steady_peek?).bind fun found => ?_).nested hcap
  cases found with
  | none => exact .refl (steady_fail _)
  | some token =>
    dsimp only
    split
    · exact (Truncates.refl steady_advance).bind fun _ => hexpression.bind fun inner =>
        .refl ((steady_expect _ _).bind fun _ => steady_pure inner)
    · exact .refl (steady_advance.bind fun _ => steady_pure _)
    · split
      · exact (Truncates.refl steady_advance).bind fun _ => hfactor.bind fun _ =>
          .refl (steady_pure _)
      · exact .refl (steady_fail _)

theorem truncates_factorWithin (bound : Nat) :
    Truncates limit cap (factorWithin ops (some limit) bound) (factorWithin ops cap bound) := by
  induction bound with
  | zero => exact (Truncates.refl (steady_fail _)).nested hcap
  | succ bound ih =>
    exact truncates_factorOf hcap
      (truncates_sumOf hcap ops (truncates_termWithin hcap ops ih bound)) ih

/-- The bound is the number of tokens to come, and both runs start from the same state. -/
theorem truncates_expression :
    Truncates limit cap (Rule.expression ops (some limit)) (Rule.expression ops cap) := by
  have hfactor : Truncates limit cap (Rule.factor ops (some limit)) (Rule.factor ops cap) :=
    (Truncates.refl steady_cursor).bind fun c => truncates_factorWithin hcap ops c.remaining
  exact truncates_sumOf hcap ops ((Truncates.refl steady_cursor).bind fun c =>
    truncates_termWithin hcap ops hfactor c.remaining)

/-- A function nests in its expression only. -/
theorem truncates_function :
    Truncates limit cap (function ops (some limit)) (function ops cap) := by
  have hexpect (kind : Token.Kind) (expected : Expectation) :
      Truncates limit cap (expect kind expected) (expect kind expected) :=
    .refl (steady_expect kind expected)
  have hstatement : Truncates limit cap (statement ops (some limit)) (statement ops cap) :=
    (hexpect _ _).bind fun _ => (truncates_expression hcap ops).bind fun _ =>
      (hexpect _ _).bind fun _ => .refl (steady_pure _)
  exact (hexpect _ _).bind fun _ => (hexpect _ _).bind fun _ => (hexpect _ _).bind fun _ =>
    (hexpect _ _).bind fun _ => (hexpect _ _).bind fun _ => hstatement.bind fun _ =>
    (hexpect _ _).bind fun _ => .refl (steady_pure _)

/-- **Under a tighter cap the rule for programs does the same, or is cut off.** -/
theorem truncates_program (strict : Bool) :
    Truncates limit cap (program ops (some limit) strict) (program ops cap strict) := by
  refine (Truncates.refl steady_cursor).bind fun c => ?_
  split
  · exact .refl (steady_fail _)
  · refine (truncates_function hcap ops).bind fun f => .refl ?_
    cases strict
    · exact steady_pure _
    · exact steady_endOfInput.bind fun _ => steady_pure _

end Rules

end Rule

end MiniC
