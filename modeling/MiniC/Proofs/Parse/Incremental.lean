import MiniC.Parse.Steady
import MiniC.Proofs.Parse.Stretch

/-!
# Rules in a longer list

Put a token list into a longer one: some tokens in front of it, which are consumed already, and some
behind it. A rule that runs from the same place in both lists does the same in both, step by step,
until the shorter one has no more tokens. It never looks past the token it stops at, and it asks the
cap before it looks at all.

## The crux

A chain of operators ends where the input ends. So where the shorter list runs out, a rule that ends
with a chain succeeds, and in the longer list it may go on. Such a rule is *greedy*. Every rule that
looks for a closing token behind it makes up for this: the shorter list ends too early for it, as it
does for a rule that waits for an operand.

## The architecture

* **`State.Inside`** relates the two places, **`GoesOn`** the two outcomes.
* **`GoesOn.bind`** needs that the second rule is **`Idle`** where the first one was stopped by the
  end of the input: it then consumes nothing.
* **`Incremental`** is the property of a rule, with fewer than `k` tokens to come; the rules for
  phrases carry it from fewer tokens to more.
* **`incremental_function`** is the result: a function is not greedy.
-/

namespace MiniC

/-- The error of a rule that does not find what it looks for: nothing stands there, or something
else does. -/
def ParseError.missing (expected : Expectation) : Option Token → ParseError
  | none => .unexpectedEnd expected
  | some found => .unexpectedToken expected found

namespace Rule

variable {α β : Type} {cap : Option Nat} {greedy greedy' : Prop} {older more : List Token}
  {s t : State} {token : Token} {k : Nat}

/-! ## A place in two lists -/

/-- The list of `t` is that of `s` with tokens in front of it and behind it, and `t` stands where
`s` stands. -/
structure State.Inside (older more : List Token) (s t : State) : Prop where
  rest_eq : t.cursor.rest = s.cursor.rest ++ more
  consumed_eq : t.cursor.consumed = s.cursor.consumed ++ older
  depth_eq : t.depth = s.depth

theorem State.Inside.enter (h : s.Inside older more t) : s.enter.Inside older more t.enter :=
  ⟨h.rest_eq, h.consumed_eq, congrArg (· + 1) h.depth_eq⟩

theorem State.Inside.leave (h : s.Inside older more t) : s.leave.Inside older more t.leave :=
  ⟨h.rest_eq, h.consumed_eq, congrArg (· - 1) h.depth_eq⟩

/-- In the longer list the tokens in front are counted as well. -/
theorem State.Inside.position_eq (h : s.Inside older more t) :
    t.cursor.position = s.cursor.position + older.length := by
  rw [Cursor.position, h.consumed_eq, List.length_append]
  rfl

theorem State.Inside.peek?_eq (h : s.Inside older more t) (hpeek : s.cursor.peek? = some token) :
    t.cursor.peek? = some token := by
  rw [Cursor.peek?, h.rest_eq, List.head?_append]
  rw [Cursor.peek?] at hpeek
  rw [hpeek]
  rfl

/-- Where the longer list is used up, the shorter one is. -/
theorem State.Inside.peek?_eq_none (h : s.Inside older more t) (hpeek : t.cursor.peek? = none) :
    s.cursor.peek? = none := by
  cases hs : s.cursor.peek? with
  | none => rfl
  | some token =>
    rw [h.peek?_eq hs] at hpeek
    cases hpeek

/-- At the end of the shorter list the longer one goes on with what is behind it. -/
theorem State.Inside.peek?_at_end (h : s.Inside older more t) (hend : s.cursor.peek? = none) :
    t.cursor.peek? = more.head? := by
  rw [Cursor.peek?, h.rest_eq, List.head?_eq_none_iff.1 hend, List.nil_append]

theorem State.Inside.advance (h : s.Inside older more t) (hpeek : s.cursor.peek? = some token) :
    s.advance.Inside older more t.advance where
  rest_eq := by
    have hs := (State.past_advance hpeek).rest_eq
    have ht := (State.past_advance (h.peek?_eq hpeek)).rest_eq
    rw [h.rest_eq, hs] at ht
    exact (List.cons.inj ht).2.symm
  consumed_eq := by
    rw [(State.past_advance hpeek).consumed_eq,
      (State.past_advance (h.peek?_eq hpeek)).consumed_eq, h.consumed_eq]
    rfl
  depth_eq := h.depth_eq

/-- Consuming a token that only the longer list has leads past the end of the shorter one. -/
theorem State.Inside.lt_advance (h : s.Inside older more t) (hpeek : t.cursor.peek? = some token) :
    s.cursor.position + older.length < t.advance.cursor.position := by
  have hadvance := (State.past_advance hpeek).position_eq
  rw [hadvance, h.position_eq]
  exact Nat.lt_succ_self _

/-! ## Two outcomes -/

/-- What a rule does in a list, beside what it does in a longer list. -/
inductive GoesOn (greedy : Prop) (older more : List Token) : Outcome α → Outcome α → Prop where
  | ok {a : α} {s t : State} (hinside : s.Inside older more t) :
      GoesOn greedy older more (.ok a s) (.ok a t)
  | tooDeep {limit : Nat} {s t : State} (hinside : s.Inside older more t) :
      GoesOn greedy older more (.error (.tooDeep limit s.cursor.location) s)
        (.error (.tooDeep limit t.cursor.location) t)
  | missing {expected : Expectation} {s t : State} (hinside : s.Inside older more t) :
      GoesOn greedy older more (.error (.missing expected s.cursor.peek?) s)
        (.error (.missing expected t.cursor.peek?) t)
  | waits {expected : Expectation} {s : State} {outcome : Outcome α}
      (hend : s.cursor.peek? = none)
      (hlater : s.cursor.position + older.length < outcome.state.cursor.position) :
      GoesOn greedy older more (.error (.unexpectedEnd expected) s) outcome
  | stops {a : α} {s : State} {outcome : Outcome α} (hgreedy : greedy)
      (hend : s.cursor.peek? = none)
      (hlater : s.cursor.position + older.length < outcome.state.cursor.position) :
      GoesOn greedy older more (.ok a s) outcome

/-- The same expectation is disappointed in both lists. -/
theorem GoesOn.missing_of_peek? (expected : Expectation) {x y : Option Token}
    (hinside : s.Inside older more t) (hs : s.cursor.peek? = x) (ht : t.cursor.peek? = y) :
    GoesOn greedy older more (.error (.missing expected x) s : Outcome α)
      (.error (.missing expected y) t) := by
  subst hs ht
  exact .missing hinside

/-- Only `stops` speaks of greed, so what goes on without greed goes on with it. -/
theorem GoesOn.mono {short long : Outcome α} (himp : greedy → greedy')
    (h : GoesOn greedy older more short long) : GoesOn greedy' older more short long := by
  cases h with
  | ok hinside => exact .ok hinside
  | tooDeep hinside => exact .tooDeep hinside
  | missing hinside => exact .missing hinside
  | waits hend hlater => exact .waits hend hlater
  | stops hgreedy hend hlater => exact .stops (himp hgreedy) hend hlater

/-- At the end of the input the rule consumes nothing. It reports the end, or if it is greedy it
may succeed. -/
def Idle (greedy : Prop) (rule : Rule α) : Prop :=
  ∀ s : State, s.cursor.peek? = none →
    (∃ expected, rule.run s = .error (.unexpectedEnd expected) s) ∨
      greedy ∧ ∃ a, rule.run s = .ok a s

/-- What follows a rule leads on from where the rule ended. -/
theorem position_le_bind (rule : Rule α) {next : α → Rule β}
    (hnext : ∀ a, Steady cap (next a)) (t : State) :
    (rule.run t).state.cursor.position ≤ ((rule >>= next).run t).state.cursor.position := by
  rw [run_bind]
  cases rule.run t with
  | ok a u => exact (hnext a u).position_le
  | error error u => exact Nat.le_refl _

/-- **Rules in a row go on if each does.** Where the first one was stopped by the end of the shorter
list, the second one finds nothing there, while in the longer list it can only go further ahead. -/
theorem GoesOn.bind {rule : Rule α} {next : α → Rule β}
    (hrule : GoesOn greedy older more (rule.run s) (rule.run t))
    (hnext : ∀ a u v, rule.run t = .ok a v → u.Inside older more v →
      GoesOn greedy' older more ((next a).run u) ((next a).run v))
    (hsteady : ∀ a, Steady cap (next a)) (hidle : greedy → ∀ a, Idle greedy' (next a)) :
    GoesOn greedy' older more ((rule >>= next).run s) ((rule >>= next).run t) := by
  have hlater := position_le_bind rule hsteady t
  rw [run_bind s]
  generalize hshort : rule.run s = short at hrule
  generalize hlong : rule.run t = long at hrule hlater
  cases hrule with
  | ok hinside =>
    rw [run_bind, hlong]
    exact hnext _ _ _ hlong hinside
  | tooDeep hinside =>
    rw [run_bind, hlong]
    exact .tooDeep hinside
  | missing hinside =>
    rw [run_bind, hlong]
    exact .missing hinside
  | waits hend hless => exact .waits hend (Nat.lt_of_lt_of_le hless hlater)
  | @stops a u _ hgreedy hend hless =>
    -- the first rule was stopped by the end of the input, so the second one finds nothing
    dsimp only
    obtain ⟨expected, hrun⟩ | ⟨hgreedy', b, hrun⟩ := hidle hgreedy a u hend
    · rw [hrun]
      exact .waits hend (Nat.lt_of_lt_of_le hless hlater)
    · rw [hrun]
      exact .stops hgreedy' hend (Nat.lt_of_lt_of_le hless hlater)

/-- Nested rules go on as the rules themselves do, for the cap looks at the depth, and that is the
same in both lists. -/
theorem GoesOn.nested {rule : Rule α} (hinside : s.Inside older more t)
    (h : GoesOn greedy older more (rule.run s.enter) (rule.run t.enter)) :
    GoesOn greedy older more ((nested cap rule).run s) ((nested cap rule).run t) := by
  rcases room_or_reached cap s.depth with hroom | ⟨limit, rfl, hle⟩
  · have hroom' : ∀ limit ∈ cap, t.depth < limit := by
      rw [hinside.depth_eq]
      exact hroom
    rw [run_nested_of_lt s hroom, run_nested_of_lt t hroom']
    generalize rule.run s.enter = short at h
    generalize rule.run t.enter = long at h
    cases h with
    | ok hinside => exact .ok hinside.leave
    | tooDeep hinside => exact .tooDeep hinside.leave
    | missing hinside => exact .missing hinside.leave
    | waits hend hlater => cases long <;> exact .waits hend hlater
    | stops hgreedy hend hlater => cases long <;> exact .stops hgreedy hend hlater
  · -- the cap is asked before any token is looked at
    rw [run_nested_of_le s hle, run_nested_of_le t (by rw [hinside.depth_eq]; exact hle)]
    exact .tooDeep hinside

/-! ## Incremental rules -/

/-- With fewer than `k` tokens to come in the longer list, what a rule does there goes on from what
it does in the shorter list. -/
structure Incremental (cap : Option Nat) (greedy : Prop) (k : Nat) (rule : Rule α) : Prop where
  steady : Steady cap rule
  goesOn : ∀ {older more : List Token} {s t : State}, s.Inside older more t →
    t.cursor.remaining < k → GoesOn greedy older more (rule.run s) (rule.run t)

section Rules

variable {rule : Rule α} {next : α → Rule β}

/-- A rule that is incremental below a bound is so below every smaller one, and a rule that is not
greedy may be called greedy. -/
theorem Incremental.mono {m : Nat} (h : Incremental cap greedy m rule) (himp : greedy → greedy')
    (hle : k ≤ m) : Incremental cap greedy' k rule where
  steady := h.steady
  goesOn hinside ht := (h.goesOn hinside (Nat.lt_of_lt_of_le ht hle)).mono himp

theorem incremental_pure (a : α) : Incremental cap greedy k (pure a : Rule α) where
  steady := steady_pure a
  goesOn hinside _ := .ok hinside

/-- A rule that first looks for a token is idle: at the end of the input it reports the end. -/
theorem idle_expect_bind (kind : Token.Kind) (expected : Expectation) (next : Token → Rule β) :
    Idle greedy (expect kind expected >>= next) := by
  intro s hend
  refine .inl ⟨expected, ?_⟩
  rw [run_bind, run_expect, hend]

/-- Looking for a token ends in the same way in both lists, unless the shorter one is used up. -/
theorem incremental_expect (kind : Token.Kind) (expected : Expectation) :
    Incremental cap greedy k (expect kind expected) where
  steady := steady_expect kind expected
  goesOn {older more s t} hinside _ := by
    rw [run_expect, run_expect]
    cases hs : s.cursor.peek? with
    | some token =>
      rw [hinside.peek?_eq hs]
      dsimp only
      split
      · exact .ok (hinside.advance hs)
      · exact .missing_of_peek? expected hinside hs (hinside.peek?_eq hs)
    | none =>
      cases ht : t.cursor.peek? with
      | none => exact .missing_of_peek? expected hinside hs ht
      | some token =>
        dsimp only
        split
        · exact .waits hs (hinside.lt_advance ht)
        · exact .missing_of_peek? expected hinside hs ht

/-- Rules in a row are incremental if each is, and if the second one is idle where a greedy first
one may have been stopped. -/
theorem Incremental.bind (hrule : Incremental cap greedy k rule)
    (hnext : ∀ a, Incremental cap greedy' k (next a))
    (hidle : greedy → ∀ a, Idle greedy' (next a)) :
    Incremental cap greedy' k (rule >>= next) where
  steady := hrule.steady.bind fun a => (hnext a).steady
  goesOn {older more s t} hinside ht := by
    refine (hrule.goesOn hinside ht).bind (fun a u v hrun huv => ?_) (fun a => (hnext a).steady)
      hidle
    have hahead := hrule.steady t
    rw [hrun] at hahead
    exact (hnext a).goesOn huv (Nat.lt_of_le_of_lt hahead.remaining_le ht)

theorem Incremental.nested (h : Incremental cap greedy k rule) :
    Incremental cap greedy k (nested cap rule) where
  steady := h.steady.nested
  goesOn hinside ht := .nested hinside (h.goesOn hinside.enter ht)

/-- Behind an expected token a rule is as greedy as what follows. -/
theorem incremental_expect_bind (kind : Token.Kind) (expected : Expectation)
    {next : Token → Rule β} (hnext : ∀ token, Incremental cap greedy k (next token)) :
    Incremental cap greedy k (expect kind expected >>= next) :=
  (show Incremental cap False k (expect kind expected) from
    incremental_expect kind expected).bind hnext nofun

end Rules

/-! ## Chains -/

section Chains

variable {table : Token.Kind → Option BinaryOp} {operand : Rule Expr}

/-- A chain takes an operator that comes next, and then an operand and the rest of the chain as one
sequence. -/
theorem run_chain_of_operator (hoperand : NonGrowing operand) {op : BinaryOp}
    (hpeek : s.cursor.peek? = some token) (hop : table token.kind = some op) (left : Expr) :
    (chain table operand left).run s =
      (operand >>= fun right =>
        chain table operand (.binary op left right token.location)).run s.advance := by
  rw [run_chain_eq hoperand, hpeek, run_bind]
  dsimp only
  rw [hop]
  dsimp only
  cases operand.run s.advance <;> rfl

/-- At the end of the input a chain succeeds without consuming anything. -/
theorem idle_chain (hoperand : NonGrowing operand) (left : Expr) :
    Idle True (chain table operand left) := by
  intro s hend
  refine .inr ⟨trivial, left, run_chain_of_none hoperand ?_ left⟩
  rw [hend]
  nofun

/-- A chain is incremental if its operand is, and it is greedy: it may be stopped by the end of the
shorter list behind any operand. -/
theorem incremental_chain (hoperand : NonGrowing operand)
    (h : Incremental cap True k operand) (left : Expr) :
    Incremental cap True (k + 1) (chain table operand left) where
  steady := steady_chain table h.steady left
  goesOn {older more s t} hinside ht := by
    have hsteady (left : Expr) : Steady cap (chain table operand left) :=
      steady_chain table h.steady left
    -- Every turn consumes a token, so the induction is on the tokens to come.
    induction hn : t.cursor.remaining using Nat.strongRecOn generalizing left s t with
    | ind n ih =>
      cases hpeek : t.cursor.peek? with
      | none =>
        rw [run_chain_of_none hoperand (by rw [hinside.peek?_eq_none hpeek]; nofun),
          run_chain_of_none hoperand (by rw [hpeek]; nofun)]
        exact .ok hinside
      | some token =>
        cases hop : table token.kind with
        | none =>
          rw [run_chain_of_none hoperand (s := t) (by rw [hpeek]; rintro _ ⟨⟩; exact hop)]
          rw [run_chain_of_none hoperand (s := s) (fun other hother => by
            obtain rfl := Option.some.inj ((hinside.peek?_eq hother).symm.trans hpeek)
            exact hop)]
          exact .ok hinside
        | some op =>
          rw [run_chain_of_operator hoperand hpeek hop]
          have hless := State.remaining_advance_lt hpeek
          cases hs : s.cursor.peek? with
          | none =>
            -- the shorter list ends here, and the chain with it
            rw [run_chain_of_none hoperand (by rw [hs]; nofun)]
            have hahead := (h.steady.bind fun right =>
              hsteady (.binary op left right token.location)) t.advance
            exact .stops trivial hs
              (Nat.lt_of_lt_of_le (hinside.lt_advance hpeek) hahead.position_le)
          | some first =>
            obtain rfl := Option.some.inj ((hinside.peek?_eq hs).symm.trans hpeek)
            rw [run_chain_of_operator hoperand hs hop]
            refine (h.goesOn (hinside.advance hs) (by omega)).bind (fun right u v hrun huv => ?_)
              (fun right => hsteady _) (fun _ right => idle_chain hoperand _)
            have hle := hoperand t.advance right v hrun
            exact ih v.cursor.remaining (by omega) _ huv (by omega) rfl

end Chains

/-! ## From fewer tokens to more -/

section Phrases

variable (cap) (ops : Operators)

/-- The right operand of a product is incremental, and greedy where it is a term. -/
theorem incremental_productOperand (hfactor : Incremental cap False k (factor ops cap))
    (hterm : Incremental cap True k (term ops cap)) :
    Incremental cap True k (productOperand ops cap (factor ops cap) (term ops cap)) := by
  unfold productOperand
  cases ops.grouping with
  | left => exact hfactor.mono nofun (Nat.le_refl k)
  | right => exact hterm.nested

/-- A term ends with a chain, so it is greedy. -/
theorem incremental_term (hfactor : Incremental cap False (k + 1) (factor ops cap))
    (hterm : Incremental cap True k (term ops cap)) :
    Incremental cap True (k + 1) (term ops cap) := by
  have hgrowing : NonGrowing (productOperand ops cap (factor ops cap) (term ops cap)) :=
    (consuming_productOperand ops cap (consuming_factor ops cap)
      (consuming_term ops cap)).nonGrowing
  rw [term_eq]
  exact hfactor.bind (fun left => incremental_chain hgrowing (incremental_productOperand cap ops
    (hfactor.mono id (Nat.le_succ k)) hterm) left) nofun

theorem incremental_expression (hterm : Incremental cap True k (term ops cap)) :
    Incremental cap True k (expression ops cap) := by
  have hgrowing : NonGrowing (term ops cap) := (consuming_term ops cap).nonGrowing
  rw [expression_eq]
  exact (hterm.bind (fun left =>
    (incremental_chain hgrowing hterm left).mono id (Nat.le_succ k))
    fun _ left => idle_chain hgrowing left).nested

/-- A factor is not greedy. It ends with a literal, a factor or a closing parenthesis, and waits for
each of them. -/
theorem incremental_factor (hexpression : Incremental cap True k (expression ops cap))
    (hfactor : Incremental cap False k (factor ops cap)) :
    Incremental cap False (k + 1) (factor ops cap) where
  steady := steady_factor ops
  goesOn {older more s t} hinside ht := by
    have hparens : Incremental cap False k (do
        let inner ← expression ops cap
        let _ ← expect .closeParen .closeParen
        return inner) :=
      hexpression.bind (fun inner => incremental_expect_bind _ _ fun _ => incremental_pure inner)
        fun _ inner => idle_expect_bind _ _ _
    have hunary (op : UnaryOp) (location : Location) : Incremental cap False k (do
        let operand ← factor ops cap
        return Expr.unary op operand location) :=
      hfactor.bind (fun operand => incremental_pure _) nofun
    rw [factor_eq, factorOf_eq]
    refine .nested hinside ?_
    have henter := hinside.enter
    dsimp only
    cases hs : s.enter.cursor.peek? with
    | some token =>
      have hpeek := henter.peek?_eq hs
      have hadvance := henter.advance hs
      have hless : t.enter.advance.cursor.remaining < t.cursor.remaining :=
        State.remaining_advance_lt (s := t.enter) hpeek
      rw [hpeek]
      dsimp only
      split
      · exact hparens.goesOn hadvance (by omega)
      · exact .ok hadvance
      · split
        · exact (hunary _ _).goesOn hadvance (by omega)
        · exact .missing_of_peek? .expression henter hs hpeek
    | none =>
      -- whatever token comes next in the longer list, it is consumed or it fits nowhere
      cases hpeek : t.enter.cursor.peek? with
      | none => exact .missing_of_peek? .expression henter hs hpeek
      | some token =>
        have hlater := henter.lt_advance hpeek
        dsimp only
        split
        · exact .waits hs (Nat.lt_of_lt_of_le hlater (hparens.steady t.enter.advance).position_le)
        · exact .waits hs hlater
        · split
          · exact .waits hs (Nat.lt_of_lt_of_le hlater
              ((hunary _ _).steady t.enter.advance).position_le)
          · exact .missing_of_peek? .expression henter hs hpeek

/-- **The rules for phrases are incremental**, by induction on the tokens to come in the longer
list. -/
theorem incremental_phrases (k : Nat) :
    Incremental cap False k (factor ops cap) ∧ Incremental cap True k (term ops cap) := by
  induction k with
  | zero => exact ⟨⟨steady_factor ops, fun _ ht => absurd ht (Nat.not_lt_zero _)⟩,
      ⟨steady_term ops, fun _ ht => absurd ht (Nat.not_lt_zero _)⟩⟩
  | succ k ih =>
    have hfactor := incremental_factor cap ops (incremental_expression cap ops ih.2) ih.1
    exact ⟨hfactor, incremental_term cap ops hfactor ih.2⟩

/-- **A function does in a longer list what it does in a shorter one**, unless it is waiting for
more tokens there. -/
theorem incremental_function (k : Nat) : Incremental cap False k (function ops cap) := by
  have hexpression := incremental_expression cap ops (incremental_phrases cap ops k).2
  have hstatement : Incremental cap False k (statement ops cap) :=
    incremental_expect_bind _ _ fun keyword => hexpression.bind
      (fun returned => incremental_expect_bind _ _ fun _ => incremental_pure _)
      fun _ returned => idle_expect_bind _ _ _
  exact incremental_expect_bind _ _ fun _ => incremental_expect_bind _ _ fun _ =>
    incremental_expect_bind _ _ fun _ => incremental_expect_bind _ _ fun _ =>
    incremental_expect_bind _ _ fun _ => hstatement.bind
      (fun _ => incremental_expect_bind _ _ fun _ => incremental_pure _) nofun

end Phrases

end Rule

end MiniC
