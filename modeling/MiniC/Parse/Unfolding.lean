import MiniC.Parse.Expression

/-!
# The expression rules without bounds

`MiniC.Parse.Expression` writes its rules over a bound on the tokens to come. This module shows
that the bound never matters: as long as it is no smaller than the number of tokens that are
really to come, every bound gives the same outcome.

## The architecture

* **`NonGrowing`, `Consuming`** are the two progress properties of a rule: after success no more
  tokens are to come than before, or strictly fewer.
* **`AgreeBelow`** compares two rules on the states with fewer than a given number of tokens to
  come. Chains and nested rules carry agreement of their parts over to the whole.
* **`factorWithin_agree`, `termWithin_agree`** say that sufficient bounds agree.
* **`factor_eq`, `term_eq`, `expression_eq`, `chain_eq`** are the result: the rules satisfy the
  equations of the grammar.
-/

namespace MiniC

namespace Rule

variable {α β : Type}

/-! ## Progress -/

def NonGrowing (rule : Rule α) : Prop :=
  ∀ s a s', rule.run s = .ok a s' → s'.cursor.remaining ≤ s.cursor.remaining

def Consuming (rule : Rule α) : Prop :=
  ∀ s a s', rule.run s = .ok a s' → s'.cursor.remaining < s.cursor.remaining

theorem Consuming.nonGrowing {rule : Rule α} (h : Consuming rule) : NonGrowing rule :=
  fun s a s' hrun => Nat.le_of_lt (h s a s' hrun)

/-- What a rule in sequence succeeds with comes from a success of each part. -/
theorem bind_eq_ok {rule : Rule α} {next : α → Rule β} {s : State} {b : β} {s' : State}
    (h : (rule >>= next).run s = .ok b s') :
    ∃ a t, rule.run s = .ok a t ∧ (next a).run t = .ok b s' := by
  rw [run_bind] at h
  cases hrun : rule.run s with
  | ok a t => exact ⟨a, t, rfl, by simpa only [hrun] using h⟩
  | error error t => simp [hrun] at h

/-- It is enough for a sequence to consume tokens that its first part does. -/
theorem Consuming.bind {rule : Rule α} {next : α → Rule β} (hrule : Consuming rule)
    (hnext : ∀ a, NonGrowing (next a)) : Consuming (rule >>= next) := by
  intro s b s' hrun
  obtain ⟨a, t, hfirst, hsecond⟩ := bind_eq_ok hrun
  exact Nat.lt_of_le_of_lt (hnext a t b s' hsecond) (hrule s a t hfirst)

/-- With no tokens to come a consuming rule cannot succeed, so what would follow it does not
matter. -/
theorem Consuming.bind_at_end {rule : Rule α} (h : Consuming rule) {s : State}
    (hzero : s.cursor.remaining = 0) (next : α → Rule α) :
    (rule >>= next).run s = rule.run s := by
  rw [run_bind]
  cases hrun : rule.run s with
  | error => rfl
  | ok a t => exact absurd (h s a t hrun) (by omega)

theorem nonGrowing_pure (a : α) : NonGrowing (pure a : Rule α) := by
  intro s b s' hrun
  obtain ⟨-, rfl⟩ := Outcome.ok.inj ((run_pure s a).symm.trans hrun)
  exact Nat.le_refl _

theorem NonGrowing.bind {rule : Rule α} {next : α → Rule β} (hrule : NonGrowing rule)
    (hnext : ∀ a, NonGrowing (next a)) : NonGrowing (rule >>= next) := by
  intro s b s' hrun
  obtain ⟨a, t, hfirst, hsecond⟩ := bind_eq_ok hrun
  exact Nat.le_trans (hnext a t b s' hsecond) (hrule s a t hfirst)

/-- A nested rule that succeeds does so as the rule itself does one level deeper. -/
theorem nested_eq_ok {cap : Option Nat} {rule : Rule α} {s : State} {a : α} {s' : State}
    (h : (nested cap rule).run s = .ok a s') :
    ∃ t, rule.run s.enter = .ok a t ∧ s' = t.leave := by
  dsimp only [nested] at h
  split at h
  · cases h
  · split at h
    next b t hrun =>
      obtain ⟨rfl, rfl⟩ := Outcome.ok.inj h
      exact ⟨t, hrun, rfl⟩
    next => cases h

/-- One level deeper a rule consumes the same tokens. -/
theorem Consuming.nested {rule : Rule α} (h : Consuming rule) (cap : Option Nat) :
    Consuming (nested cap rule) := by
  intro s a s' hrun
  obtain ⟨t, ht, rfl⟩ := nested_eq_ok hrun
  exact h s.enter a t ht

theorem consuming_expect (kind : Token.Kind) (expected : Expectation) :
    Consuming (expect kind expected) := by
  intro s a s' hrun
  rw [run_expect] at hrun
  split at hrun
  · cases hrun
  next token hpeek =>
    split at hrun
    · obtain ⟨-, rfl⟩ := Outcome.ok.inj hrun
      have hpos := Cursor.remaining_pos_of_peek? hpeek
      rw [State.cursor_advance, Cursor.remaining_advance]
      omega
    · cases hrun

/-- Reading an operator consumes a token exactly if there is one. -/
theorem operator?_eq_ok {table : Token.Kind → Option BinaryOp} {s s' : State}
    {found : Option (BinaryOp × Location)} (h : (operator? table).run s = .ok found s') :
    (found = none ∧ s' = s) ∨
      (found ≠ none ∧ s' = s.advance ∧ s'.cursor.remaining < s.cursor.remaining) := by
  rw [run_operator?] at h
  split at h
  · obtain ⟨rfl, rfl⟩ := Outcome.ok.inj h
    exact .inl ⟨rfl, rfl⟩
  next token hpeek =>
    have hpos := Cursor.remaining_pos_of_peek? hpeek
    split at h
    · obtain ⟨rfl, rfl⟩ := Outcome.ok.inj h
      exact .inl ⟨rfl, rfl⟩
    · obtain ⟨rfl, rfl⟩ := Outcome.ok.inj h
      refine .inr ⟨by simp, rfl, ?_⟩
      rw [State.cursor_advance, Cursor.remaining_advance]
      omega

/-! ## Agreement -/

/-- Two rules have the same outcome wherever fewer than `k` tokens are to come. -/
def AgreeBelow (k : Nat) (f g : Rule α) : Prop :=
  ∀ s, s.cursor.remaining < k → f.run s = g.run s

theorem AgreeBelow.mono {k l : Nat} {f g : Rule α} (h : AgreeBelow k f g) (hl : l ≤ k) :
    AgreeBelow l f g :=
  fun s hs => h s (Nat.lt_of_lt_of_le hs hl)

/-- Nesting moves no cursor, so rules that agree do so one level deeper. -/
theorem AgreeBelow.nested {k : Nat} {f g : Rule α} (h : AgreeBelow k f g) (cap : Option Nat) :
    AgreeBelow k (nested cap f) (nested cap g) := by
  intro s hs
  simp only [Rule.nested, h s.enter hs]

/-- Sequences agree if their first parts do, and their second parts do on what the first parts
leave. -/
theorem AgreeBelow.bind {k : Nat} {f g : Rule α} {next next' : α → Rule β}
    (h : AgreeBelow k f g) (hf : NonGrowing f) (hnext : ∀ a, AgreeBelow k (next a) (next' a)) :
    AgreeBelow k (f >>= next) (g >>= next') := by
  intro s hs
  rw [run_bind, run_bind, ← h s hs]
  cases hrun : f.run s with
  | ok a t => exact hnext a t (Nat.lt_of_le_of_lt (hf s a t hrun) hs)
  | error => rfl

/-! ## Chains -/

/-- One turn of a chain that may take another operator: the operator, its right operand, and then
the chain on the tree of both. -/
theorem chainWithin_succ (table : Token.Kind → Option BinaryOp) (operand : Rule Expr)
    (bound : Nat) (left : Expr) (s : State) :
    (chainWithin table operand (bound + 1) left).run s =
      match (operator? table).run s with
      | .ok none t => .ok left t
      | .ok (some (op, location)) t =>
        (operand >>= fun right =>
          chainWithin table operand bound (.binary op left right location)).run t
      | .error error t => .error error t := by
  rw [chainWithin, run_bind]
  cases (operator? table).run s with
  | error => rfl
  | ok found t => cases found <;> rfl

/-- Sufficient bounds on a chain agree. -/
theorem chainWithin_agree {table : Token.Kind → Option BinaryOp} {operand operand' : Rule Expr}
    (hoperand : NonGrowing operand) {n m : Nat} {left : Expr} {s : State}
    (hagree : AgreeBelow s.cursor.remaining operand operand')
    (hn : s.cursor.remaining ≤ n) (hm : s.cursor.remaining ≤ m) :
    (chainWithin table operand n left).run s = (chainWithin table operand' m left).run s := by
  induction n generalizing m left s with
  | zero =>
    -- a bound of zero is enough only where no token is to come, and then no operator is
    have hpeek := s.cursor.peek?_eq_none_iff.2 (Nat.le_zero.1 hn)
    cases m with
    | zero => rfl
    | succ m => rw [chainWithin_succ, run_operator?, hpeek]; rfl
  | succ n ih =>
    cases m with
    | zero =>
      have hpeek := s.cursor.peek?_eq_none_iff.2 (Nat.le_zero.1 hm)
      rw [chainWithin_succ, run_operator?, hpeek]
      rfl
    | succ m =>
      rw [chainWithin_succ, chainWithin_succ]
      cases hop : (operator? table).run s with
      | error => rfl
      | ok found t =>
        cases found with
        | none => rfl
        | some pair =>
          obtain ⟨hnone, -⟩ | ⟨-, -, hless⟩ := operator?_eq_ok hop
          · cases hnone
          · -- The operand starts behind the operator, and the chain goes on behind the operand.
            dsimp only
            rw [run_bind, run_bind, ← hagree t hless]
            cases hrun : operand.run t with
            | error => rfl
            | ok right u =>
              have hu := hoperand t right u hrun
              exact ih (hagree.mono (by omega)) (by omega) (by omega)

theorem chain_agree {table : Token.Kind → Option BinaryOp} {operand operand' : Rule Expr}
    (hoperand : NonGrowing operand) {k : Nat} (h : AgreeBelow k operand operand') (left : Expr) :
    AgreeBelow k (chain table operand left) (chain table operand' left) :=
  fun _ hs => chainWithin_agree hoperand (h.mono (Nat.le_of_lt hs)) (Nat.le_refl _) (Nat.le_refl _)

/-- A chain goes on as long as operators follow. -/
theorem chain_eq {table : Token.Kind → Option BinaryOp} {operand : Rule Expr}
    (hoperand : NonGrowing operand) (left : Expr) :
    chain table operand left = (do
      match ← operator? table with
      | none => return left
      | some (op, location) =>
        let right ← operand
        chain table operand (.binary op left right location)) := by
  ext s
  have hagree {k : Nat} : AgreeBelow k operand operand := fun _ _ => rfl
  rw [run_chain, chainWithin_agree hoperand (m := s.cursor.remaining + 1) hagree (Nat.le_refl _)
    (Nat.le_succ _), chainWithin_succ, run_bind]
  cases hop : (operator? table).run s with
  | error => rfl
  | ok found t =>
    cases found with
    | none => rfl
    | some pair =>
      obtain ⟨hnone, -⟩ | ⟨-, -, hless⟩ := operator?_eq_ok hop
      · cases hnone
      · dsimp only
        rw [run_bind, run_bind]
        cases hrun : operand.run t with
        | error => rfl
        | ok right u =>
          have hu := hoperand t right u hrun
          exact chainWithin_agree hoperand hagree (by omega) (Nat.le_refl _)

/-- A chain leaves no more tokens than there were. If no operator follows it takes nothing at all,
so it need not consume. -/
theorem nonGrowing_chainWithin {table : Token.Kind → Option BinaryOp} {operand : Rule Expr}
    (hoperand : NonGrowing operand) (bound : Nat) (left : Expr) :
    NonGrowing (chainWithin table operand bound left) := by
  induction bound generalizing left with
  | zero => exact nonGrowing_pure left
  | succ bound ih =>
    refine NonGrowing.bind ?_ ?_
    · intro s found s' hrun
      obtain ⟨-, rfl⟩ | ⟨-, -, hless⟩ := operator?_eq_ok hrun
      · exact Nat.le_refl _
      · exact Nat.le_of_lt hless
    · intro found
      cases found with
      | none => exact nonGrowing_pure left
      | some pair => exact hoperand.bind fun right => ih _

theorem nonGrowing_chain {table : Token.Kind → Option BinaryOp} {operand : Rule Expr}
    (hoperand : NonGrowing operand) (left : Expr) : NonGrowing (chain table operand left) :=
  fun s a s' hrun => nonGrowing_chainWithin hoperand _ left s a s' hrun

/-! ## Terms -/

theorem consuming_productOperand (ops : Operators) (cap : Option Nat) {factor term : Rule Expr}
    (hfactor : Consuming factor) (hterm : Consuming term) :
    Consuming (productOperand ops cap factor term) := by
  unfold productOperand
  cases ops.grouping
  · exact hfactor
  · exact hterm.nested cap

theorem agree_productOperand (ops : Operators) (cap : Option Nat) {k : Nat}
    {factor factor' term term' : Rule Expr} (hfactor : AgreeBelow k factor factor')
    (hterm : AgreeBelow k term term') :
    AgreeBelow k (productOperand ops cap factor term) (productOperand ops cap factor' term') := by
  unfold productOperand
  cases ops.grouping
  · exact hfactor
  · exact hterm.nested cap

/-- A term consumes the tokens of its first factor at least. -/
theorem consuming_termWithin (ops : Operators) (cap : Option Nat) {factor : Rule Expr}
    (hfactor : Consuming factor) (bound : Nat) :
    Consuming (termWithin ops cap factor bound) := by
  induction bound with
  | zero => exact hfactor
  | succ bound ih =>
    exact hfactor.bind
      (nonGrowing_chain (consuming_productOperand ops cap hfactor ih).nonGrowing)

/-- Sufficient bounds on a term agree. -/
theorem termWithin_agree (ops : Operators) (cap : Option Nat) {factor factor' : Rule Expr}
    (hfactor : Consuming factor) {n m : Nat} {s : State}
    (hagree : AgreeBelow (s.cursor.remaining + 1) factor factor')
    (hn : s.cursor.remaining ≤ n) (hm : s.cursor.remaining ≤ m) :
    (termWithin ops cap factor n).run s = (termWithin ops cap factor' m).run s := by
  induction n generalizing m s with
  | zero =>
    have hhere := hagree s (Nat.lt_succ_self _)
    cases m with
    | zero => exact hhere
    | succ m =>
      -- without tokens the factor fails, so the chain behind it is not reached
      have hend := hfactor.bind_at_end (Nat.le_zero.1 hn) (chain ops.multiplicative
        (productOperand ops cap factor' (termWithin ops cap factor' m)))
      rw [run_bind, hhere] at hend
      rw [termWithin, termWithin, run_bind, hend, hhere]
  | succ n ih =>
    have hhere := hagree s (Nat.lt_succ_self _)
    cases m with
    | zero => rw [termWithin, termWithin, hfactor.bind_at_end (Nat.le_zero.1 hm), hhere]
    | succ m =>
      rw [termWithin, termWithin, run_bind, run_bind, ← hhere]
      cases hrun : factor.run s with
      | error => rfl
      | ok left t =>
        -- the factor has consumed a token, so the induction covers the terms in the chain
        have ht := hfactor s left t hrun
        refine chain_agree (consuming_productOperand ops cap hfactor
          (consuming_termWithin ops cap hfactor n)).nonGrowing (k := t.cursor.remaining + 1)
          (agree_productOperand ops cap (hagree.mono (by omega)) ?_) left t (Nat.lt_succ_self _)
        exact fun u hu => ih (hagree.mono (by omega)) (by omega) (by omega)

/-! ## Expressions and factors -/

theorem consuming_sumOf (ops : Operators) (cap : Option Nat) {term : Rule Expr}
    (hterm : Consuming term) : Consuming (sumOf ops cap term) :=
  (hterm.bind (nonGrowing_chain hterm.nonGrowing)).nested cap

theorem agree_sumOf (ops : Operators) (cap : Option Nat) {k : Nat} {term term' : Rule Expr}
    (hterm : Consuming term) (h : AgreeBelow k term term') :
    AgreeBelow k (sumOf ops cap term) (sumOf ops cap term') :=
  (h.bind hterm.nonGrowing (chain_agree hterm.nonGrowing h)).nested cap

/-- What a factor does, token by token. -/
theorem factorOf_eq (cap : Option Nat) (expression factor : Rule Expr) :
    factorOf cap expression factor = nested cap ⟨fun s =>
      match s.cursor.peek? with
      | none => .error (.unexpectedEnd .expression) s
      | some token =>
        match token.kind with
        | .openParen =>
          (expression >>= fun inner =>
            expect .closeParen .closeParen >>= fun _ => pure inner).run s.advance
        | .intLiteral => .ok (.literal token.text token.location) s.advance
        | kind =>
          match kind.unaryOp? with
          | some op =>
            (factor >>= fun operand => pure (.unary op operand token.location)).run s.advance
          | none => .error (.unexpectedToken .expression token) s⟩ := by
  unfold factorOf
  congr 1
  ext s
  rw [run_bind, run_peek?]
  dsimp only
  cases s.cursor.peek? with
  | none => rfl
  | some token =>
    obtain ⟨kind, text, location⟩ := token
    cases kind <;> rfl

/-- A factor consumes its first token before any of the rules inside of it runs. So these rules may
be ones that only take nothing back. -/
theorem consuming_factorOf (cap : Option Nat) {expression factor : Rule Expr}
    (hexpression : NonGrowing expression) (hfactor : NonGrowing factor) :
    Consuming (factorOf cap expression factor) := by
  rw [factorOf_eq]
  refine Consuming.nested (fun s e s' hrun => ?_) cap
  have hbehind {token : Token} {rule : Rule Expr} (hpeek : s.cursor.peek? = some token)
      (hrule : NonGrowing rule) (hok : rule.run s.advance = .ok e s') :
      s'.cursor.remaining < s.cursor.remaining := by
    have hpos := Cursor.remaining_pos_of_peek? hpeek
    have hle := hrule _ _ _ hok
    rw [State.cursor_advance, Cursor.remaining_advance] at hle
    omega
  dsimp only at hrun
  split at hrun
  · cases hrun
  next token hpeek =>
    split at hrun
    · exact hbehind hpeek (hexpression.bind fun inner =>
        (consuming_expect _ _).nonGrowing.bind fun _ => nonGrowing_pure inner) hrun
    · exact hbehind hpeek (nonGrowing_pure _) hrun
    · split at hrun
      · exact hbehind hpeek (hfactor.bind fun _ => nonGrowing_pure _) hrun
      · cases hrun

/-- A factor looks at its parts only behind its first token. -/
theorem agree_factorOf (cap : Option Nat) {k : Nat}
    {expression expression' factor factor' : Rule Expr} (hexpression : NonGrowing expression)
    (hfactor : NonGrowing factor) (hagreeE : AgreeBelow k expression expression')
    (hagreeF : AgreeBelow k factor factor') :
    AgreeBelow (k + 1) (factorOf cap expression factor)
      (factorOf cap expression' factor') := by
  rw [factorOf_eq, factorOf_eq]
  refine AgreeBelow.nested (fun s hs => ?_) cap
  dsimp only
  cases hpeek : s.cursor.peek? with
  | none => rfl
  | some token =>
    have hpos := Cursor.remaining_pos_of_peek? hpeek
    have hbehind : s.advance.cursor.remaining < k := by
      rw [State.cursor_advance, Cursor.remaining_advance]
      omega
    dsimp only
    split
    · exact (hagreeE.bind hexpression fun _ _ _ => rfl) _ hbehind
    · rfl
    · split
      · exact (hagreeF.bind hfactor fun _ _ _ => rfl) _ hbehind
      · rfl

/-- A factor consumes tokens within every bound; within bound zero it never succeeds. -/
theorem consuming_factorWithin (ops : Operators) (cap : Option Nat) (bound : Nat) :
    Consuming (factorWithin ops cap bound) := by
  induction bound with
  | zero =>
    intro s e s' hrun
    obtain ⟨t, ht, -⟩ := nested_eq_ok hrun
    cases ht
  | succ bound ih =>
    exact consuming_factorOf cap
      (consuming_sumOf ops cap (consuming_termWithin ops cap ih bound)).nonGrowing ih.nonGrowing

/-- Sufficient bounds on a factor agree. -/
theorem factorWithin_agree (ops : Operators) (cap : Option Nat) {n m : Nat} {s : State}
    (hn : s.cursor.remaining ≤ n) (hm : s.cursor.remaining ≤ m) :
    (factorWithin ops cap n).run s = (factorWithin ops cap m).run s := by
  -- At the end of the input a factor is refused, whatever the bound.
  have hend {bound : Nat} {u : State} (hzero : u.cursor.remaining = 0) :
      (factorWithin ops cap bound).run u = (factorWithin ops cap 0).run u := by
    cases bound with
    | zero => rfl
    | succ bound =>
      have hpeek := u.cursor.peek?_eq_none_iff.2 hzero
      rw [factorWithin, factorWithin, factorOf_eq]
      simp only [nested, State.cursor_enter, hpeek, run_fail]
  induction n generalizing m s with
  | zero => exact (hend (Nat.le_zero.1 hn)).symm
  | succ n ih =>
    cases m with
    | zero => rw [hend (Nat.le_zero.1 hm)]
    | succ m =>
      have hfactor := consuming_factorWithin ops cap n
      have hterm := consuming_termWithin ops cap hfactor n
      rw [factorWithin, factorWithin]
      refine agree_factorOf cap (k := s.cursor.remaining)
        (consuming_sumOf ops cap hterm).nonGrowing hfactor.nonGrowing
        (agree_sumOf ops cap hterm ?_) ?_ s (Nat.lt_succ_self _)
      · exact fun u hu => termWithin_agree ops cap hfactor
          (fun v hv => ih (by omega) (by omega)) (by omega) (by omega)
      · exact fun u hu => ih (by omega) (by omega)

/-! ## The equations -/

theorem consuming_factor (ops : Operators) (cap : Option Nat) : Consuming (factor ops cap) :=
  fun s e s' hrun => consuming_factorWithin ops cap _ s e s' hrun

theorem consuming_term (ops : Operators) (cap : Option Nat) : Consuming (term ops cap) :=
  fun s e s' hrun => consuming_termWithin ops cap (consuming_factor ops cap) _ s e s' hrun

theorem consuming_expression (ops : Operators) (cap : Option Nat) :
    Consuming (expression ops cap) :=
  consuming_sumOf ops cap (consuming_term ops cap)

/-- An expression is a term and a chain of terms, one level deeper. -/
theorem expression_eq (ops : Operators) (cap : Option Nat) :
    expression ops cap = nested cap (do
      let left ← term ops cap
      chain ops.additive (term ops cap) left) := rfl

/-- A term is a factor and a chain of right operands. -/
theorem term_eq (ops : Operators) (cap : Option Nat) :
    term ops cap = (do
      let left ← factor ops cap
      chain ops.multiplicative (productOperand ops cap (factor ops cap) (term ops cap)) left) := by
  ext s
  have hfactor := consuming_factor ops cap
  have hsame {k : Nat} : AgreeBelow k (factor ops cap) (factor ops cap) := fun _ _ => rfl
  rw [run_term, termWithin_agree ops cap hfactor hsame (m := s.cursor.remaining + 1) (Nat.le_refl _)
    (Nat.le_succ _), termWithin, run_bind, run_bind]
  cases hrun : (factor ops cap).run s with
  | error => rfl
  | ok left t =>
    have ht := hfactor s left t hrun
    refine chain_agree (consuming_productOperand ops cap hfactor
      (consuming_termWithin ops cap hfactor _)).nonGrowing (k := t.cursor.remaining + 1)
      (agree_productOperand ops cap hsame ?_) left t (Nat.lt_succ_self _)
    exact fun u hu => termWithin_agree ops cap hfactor hsame (by omega) (Nat.le_refl _)

/-- A factor is what its first token says. -/
theorem factor_eq (ops : Operators) (cap : Option Nat) :
    factor ops cap = factorOf cap (expression ops cap) (factor ops cap) := by
  ext s
  have hfactor := consuming_factorWithin ops cap s.cursor.remaining
  have hterm := consuming_termWithin ops cap hfactor s.cursor.remaining
  have hagree {k : Nat} (hk : k ≤ s.cursor.remaining + 1) :
      AgreeBelow k (factorWithin ops cap s.cursor.remaining) (factor ops cap) :=
    fun u hu => factorWithin_agree ops cap (by omega) (Nat.le_refl _)
  rw [run_factor, factorWithin_agree ops cap (m := s.cursor.remaining + 1) (Nat.le_refl _)
    (Nat.le_succ _), factorWithin]
  refine agree_factorOf cap (k := s.cursor.remaining) (consuming_sumOf ops cap hterm).nonGrowing
    hfactor.nonGrowing (agree_sumOf ops cap hterm ?_) (hagree (Nat.le_succ _)) s
    (Nat.lt_succ_self _)
  exact fun u hu => termWithin_agree ops cap hfactor (hagree (by omega)) (by omega) (Nat.le_refl _)

end Rule

end MiniC
