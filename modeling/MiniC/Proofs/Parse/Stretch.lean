import MiniC.Parse.Unfolding

/-!
# Stretches of tokens, nested rules and chains

Three tools that every statement about the rules for expressions is made of.

* **`State.Past`** relates two states of a run by the tokens that were consumed between them, and
  it composes (`Past.trans`).
* **`lt_of_nested_eq_ok`, `nested_eq_error`** and **`expect_eq_ok`, `expect_eq_error`** say what an
  outcome of a nested rule, or of looking for a token, comes from.
* **`chain_invariant`** is the loop rule for chains of operators: what holds of the left operand at
  the start and is kept by every operator holds where the chain ends. An error of a chain is an
  error of one of its operands, at a place where the invariant still held.
-/

namespace MiniC

namespace Rule

variable {α : Type}

/-! ## Consumed stretches -/

/-- `s.Past tokens reached t`: a run leads from `s` to `t`, consumes the tokens on the way, and
takes the nesting depth up to `reached`. -/
structure State.Past (s : State) (tokens : List Token) (reached : Nat) (t : State) : Prop where
  rest_eq : s.cursor.rest = tokens ++ t.cursor.rest
  consumed_eq : t.cursor.consumed = tokens.reverse ++ s.cursor.consumed
  depth_eq : t.depth = s.depth
  peak_eq : t.peak = max s.peak reached

theorem State.Past.refl (s : State) : s.Past [] 0 s :=
  ⟨rfl, rfl, rfl, (Nat.max_zero s.peak).symm⟩

/-- Two stretches in a row are one. It reaches as deep as the deeper of them. -/
theorem State.Past.trans {s t u : State} {a b : List Token} {m n : Nat} (hst : s.Past a m t)
    (htu : t.Past b n u) : s.Past (a ++ b) (max m n) u where
  rest_eq := by rw [hst.rest_eq, htu.rest_eq, List.append_assoc]
  consumed_eq := by
    rw [htu.consumed_eq, hst.consumed_eq, List.reverse_append, List.append_assoc]
  depth_eq := htu.depth_eq.trans hst.depth_eq
  peak_eq := by rw [htu.peak_eq, hst.peak_eq, Nat.max_assoc]

/-- The tokens to come at the start are those of the stretch and those to come at its end. -/
theorem State.Past.remaining_eq {s t : State} {tokens : List Token} {reached : Nat}
    (h : s.Past tokens reached t) :
    s.cursor.remaining = tokens.length + t.cursor.remaining := by
  unfold Cursor.remaining
  rw [h.rest_eq, List.length_append]

theorem State.Past.position_eq {s t : State} {tokens : List Token} {reached : Nat}
    (h : s.Past tokens reached t) : t.cursor.position = s.cursor.position + tokens.length := by
  unfold Cursor.position
  rw [h.consumed_eq, List.length_append, List.length_reverse, Nat.add_comm]

theorem State.past_advance {s : State} {token : Token} (h : s.cursor.peek? = some token) :
    s.Past [token] 0 s.advance := by
  obtain ⟨⟨consumed, rest⟩, depth, peak⟩ := s
  cases rest with
  | nil => cases h
  | cons first rest =>
    obtain rfl : first = token := Option.some.inj h
    exact ⟨rfl, rfl, rfl, (Nat.max_zero peak).symm⟩

/-- Behind a token that was seen, fewer tokens are to come. Inductions on the tokens to come rest on
this. -/
theorem State.remaining_advance_lt {s : State} {token : Token}
    (h : s.cursor.peek? = some token) : s.advance.cursor.remaining < s.cursor.remaining := by
  have hlength := (State.past_advance h).remaining_eq
  rw [List.length_singleton] at hlength
  omega

/-- The level that a nested rule runs on counts from its start. -/
theorem State.Past.raise {s t : State} {tokens : List Token} (h : s.enter.Past tokens 0 t) :
    s.enter.Past tokens (s.enter.depth + 0) t where
  rest_eq := h.rest_eq
  consumed_eq := h.consumed_eq
  depth_eq := h.depth_eq
  peak_eq := by
    -- entering has raised the peak to this level already
    have hpeak : t.peak = max (max s.peak (s.depth + 1)) 0 := h.peak_eq
    show t.peak = max (max s.peak (s.depth + 1)) (s.depth + 1 + 0)
    omega

/-- A stretch that takes some frames one level deeper takes one frame more. -/
theorem State.Past.nested {s t : State} {tokens : List Token} {frames : Nat}
    (h : s.enter.Past tokens (s.enter.depth + frames) t) :
    s.Past tokens (s.depth + (1 + frames)) t.leave where
  rest_eq := h.rest_eq
  consumed_eq := h.consumed_eq
  depth_eq := by
    have hdepth : t.depth = s.depth + 1 := h.depth_eq
    show t.depth - 1 = s.depth
    omega
  peak_eq := by
    have hpeak : t.peak = max (max s.peak (s.depth + 1)) (s.depth + 1 + frames) := h.peak_eq
    show t.peak = max s.peak (s.depth + (1 + frames))
    omega

/-- An operator between two stretches makes one stretch of them. -/
theorem State.Past.operator {s t u : State} {ltokens rtokens : List Token} {sign : Token}
    {lframes rframes : Nat} (hleft : s.Past ltokens (s.depth + lframes) t)
    (hsign : t.cursor.peek? = some sign)
    (hright : t.advance.Past rtokens (t.advance.depth + rframes) u) :
    s.Past (ltokens ++ sign :: rtokens) (s.depth + max lframes rframes) u := by
  have hall := (hleft.trans (State.past_advance hsign)).trans hright
  -- the right stretch starts at the depth of the left one, so the deeper of the two counts
  have hdepth : t.advance.depth = s.depth := hleft.depth_eq
  rw [List.append_assoc, List.singleton_append, hdepth, Nat.max_zero,
    Nat.add_max_add_left] at hall
  exact hall

/-! ## Nested rules and expected tokens -/

section Outcomes

variable {cap : Option Nat} {rule : Rule α} {s t : State}

/-- A nested rule that succeeds has found room under the cap. -/
theorem lt_of_nested_eq_ok {a : α} (h : (nested cap rule).run s = .ok a t) :
    ∀ limit ∈ cap, s.depth < limit := by
  intro limit hlimit
  rcases Nat.lt_or_ge s.depth limit with hlt | hle
  · exact hlt
  · rw [Option.mem_def.1 hlimit, run_nested_of_le s hle] at h
    cases h

/-- A nested rule fails at the cap, or as the rule itself does one level deeper. -/
theorem nested_eq_error {error : ParseError} (h : (nested cap rule).run s = .error error t) :
    (∃ limit ∈ cap, error = .tooDeep limit s.cursor.location ∧ t = s) ∨
      ∃ u, rule.run s.enter = .error error u ∧ t = u.leave := by
  dsimp only [nested] at h
  split at h
  -- at the cap the rule is not run at all
  next limit hlimit =>
    obtain ⟨rfl, rfl⟩ := Outcome.error.inj h
    exact .inl ⟨limit, (Option.filter_eq_some_iff.1 hlimit).1, rfl, rfl⟩
  next =>
    split at h
    next => cases h
    next error' u hrun =>
      obtain ⟨rfl, rfl⟩ := Outcome.error.inj h
      exact .inr ⟨u, hrun, rfl⟩

theorem expect_eq_ok {kind : Token.Kind} {expected : Expectation} {token : Token}
    (h : (expect kind expected).run s = .ok token t) :
    s.cursor.peek? = some token ∧ token.kind = kind ∧ t = s.advance := by
  rw [run_expect] at h
  split at h
  · cases h
  next first hpeek =>
    split at h
    next hkind =>
      obtain ⟨rfl, rfl⟩ := Outcome.ok.inj h
      exact ⟨hpeek, hkind, rfl⟩
    next => cases h

/-- A token that is not there is reported together with what stands in its place. -/
theorem expect_eq_error {kind : Token.Kind} {expected : Expectation} {error : ParseError}
    (h : (expect kind expected).run s = .error error t) :
    t = s ∧ (s.cursor.peek? = none ∧ error = .unexpectedEnd expected ∨
      ∃ token, s.cursor.peek? = some token ∧ token.kind ≠ kind ∧
        error = .unexpectedToken expected token) := by
  rw [run_expect] at h
  split at h
  next hpeek =>
    obtain ⟨rfl, rfl⟩ := Outcome.error.inj h
    exact ⟨rfl, .inl ⟨hpeek, rfl⟩⟩
  next first hpeek =>
    split at h
    next => cases h
    next hkind =>
      obtain ⟨rfl, rfl⟩ := Outcome.error.inj h
      exact ⟨rfl, .inr ⟨first, hpeek, hkind, rfl⟩⟩

theorem run_expect_of_kind {kind : Token.Kind} {expected : Expectation} {token : Token}
    (hpeek : s.cursor.peek? = some token) (hkind : token.kind = kind) :
    (expect kind expected).run s = .ok token s.advance := by
  rw [run_expect, hpeek]
  dsimp only
  rw [if_pos hkind]

end Outcomes

/-! ## Chains -/

section Chains

variable {table : Token.Kind → Option BinaryOp} {operand : Rule Expr}

/-- What a chain does is decided by the next token: it stops if the table has no operator for it,
and otherwise reads an operand and goes on. -/
theorem run_chain_eq (hoperand : NonGrowing operand) (left : Expr) (s : State) :
    (chain table operand left).run s =
      match s.cursor.peek? with
      | none => .ok left s
      | some token =>
        match table token.kind with
        | none => .ok left s
        | some op =>
          match operand.run s.advance with
          | .ok right t =>
            (chain table operand (.binary op left right token.location)).run t
          | .error error t => .error error t := by
  rw [chain_eq hoperand, run_bind, run_operator?]
  cases s.cursor.peek? with
  | none => rfl
  | some token =>
    dsimp only
    cases table token.kind with
    | none => rfl
    | some op =>
      dsimp only
      rw [run_bind]
      cases operand.run s.advance <;> rfl

theorem run_chain_of_none (hoperand : NonGrowing operand) {s : State}
    (hnone : ∀ token ∈ s.cursor.peek?, table token.kind = none) (left : Expr) :
    (chain table operand left).run s = .ok left s := by
  rw [run_chain_eq hoperand]
  cases hpeek : s.cursor.peek? with
  | none => rfl
  | some token =>
    dsimp only
    rw [hnone token hpeek]

/-- A chain that reads an operator and its right operand goes on with the tree of both. -/
theorem run_chain_of_some (hoperand : NonGrowing operand) {s t : State} {token : Token}
    {op : BinaryOp} {right : Expr} (hpeek : s.cursor.peek? = some token)
    (hop : table token.kind = some op) (hright : operand.run s.advance = .ok right t)
    (left : Expr) :
    (chain table operand left).run s =
      (chain table operand (.binary op left right token.location)).run t := by
  rw [run_chain_eq hoperand, hpeek]
  dsimp only
  rw [hop]
  dsimp only
  rw [hright]

/-- How a chain may end, given what holds of the left operand whenever the chain looks for an
operator. -/
def ChainEnds (table : Token.Kind → Option BinaryOp) (operand : Rule Expr)
    (Inv : Expr → State → Prop) : Outcome Expr → Prop
  | .ok e t => Inv e t ∧ ∀ token ∈ t.cursor.peek?, table token.kind = none
  | .error error t =>
    ∃ left s token op, Inv left s ∧ s.cursor.peek? = some token ∧
      table token.kind = some op ∧ operand.run s.advance = .error error t

/-- **The loop rule for chains.** -/
theorem chain_invariant (table : Token.Kind → Option BinaryOp) (hoperand : NonGrowing operand)
    (Inv : Expr → State → Prop)
    (hstep : ∀ left s token op right t, Inv left s → s.cursor.peek? = some token →
      table token.kind = some op → operand.run s.advance = .ok right t →
      Inv (.binary op left right token.location) t)
    {left : Expr} {s : State} (hinv : Inv left s) :
    ChainEnds table operand Inv ((chain table operand left).run s) := by
  -- Every turn consumes a token, so the induction is on the tokens to come.
  induction hn : s.cursor.remaining using Nat.strongRecOn generalizing left s with
  | ind n ih =>
    rw [run_chain_eq hoperand]
    cases hpeek : s.cursor.peek? with
    | none => exact ⟨hinv, fun token htoken => by rw [hpeek] at htoken; cases htoken⟩
    | some token =>
      dsimp only
      cases hop : table token.kind with
      | none =>
        refine ⟨hinv, fun other hother => ?_⟩
        rw [hpeek] at hother
        obtain rfl : token = other := Option.some.inj hother
        exact hop
      | some op =>
        dsimp only
        cases hright : operand.run s.advance with
        | error error t => exact ⟨left, s, token, op, hinv, hpeek, hop, hright⟩
        | ok right t =>
          have hless := State.remaining_advance_lt hpeek
          have hle := hoperand s.advance right t hright
          exact ih t.cursor.remaining (by omega)
            (hstep left s token op right t hinv hpeek hop hright) rfl

end Chains

end Rule

end MiniC
