import MiniC.Proofs.Parse.Stretch
import MiniC.Proofs.Parse.Truncation

/-!
# How deep a run nests

An opening parenthesis costs two levels of nesting, one for the factor it opens and one for the
expression inside of it, and no other token costs more. So a run nests at most two levels for every
token that is still to come, and a row of parentheses makes it do so.

## The architecture

* **`Shallow`** is the bound from above. A rule takes two levels for every token to come and some
  `extra` ones: an expression two, a term and a factor one, a chain of operators none.
* **`Reaches`** is the bound from below: how far a run nests if some kinds of tokens come next.
* **`Guards`** says that a rule first looks for some kinds of tokens, and nests at all only behind
  them, where it nests as another rule does.
* **`guards_program`** is this for a whole program: only the expression behind the header nests.
  The three results on the peak of a program follow from it and the two bounds.
-/

namespace MiniC

namespace Rule

variable {α β : Type} {cap : Option Nat} {extra levels : Nat}

/-! ## Rules that do not nest -/

/-- A rule that leaves the peak as it is. -/
def Flat (rule : Rule α) : Prop := ∀ s, (rule.run s).state.peak = s.peak

theorem flat_pure (a : α) : Flat (pure a : Rule α) := fun _ => rfl

theorem flat_expect (kind : Token.Kind) (expected : Expectation) :
    Flat (expect kind expected) := by
  intro s
  rw [run_expect]
  split
  · rfl
  · split <;> rfl

theorem flat_endOfInput : Flat endOfInput := by
  intro s
  rw [endOfInput, run_bind, run_peek?]
  dsimp only
  cases s.cursor.peek? <;> rfl

theorem Flat.bind {rule : Rule α} {next : α → Rule β} (hrule : Flat rule)
    (hnext : ∀ a, Flat (next a)) : Flat (rule >>= next) := by
  intro s
  have hfirst := hrule s
  rw [run_bind]
  cases hrun : rule.run s with
  | ok a t =>
    rw [hrun] at hfirst
    exact (hnext a t).trans hfirst
  | error error t =>
    rw [hrun] at hfirst
    exact hfirst

/-! ## The bound from above -/

/-- A rule that nests at most two levels for every token to come, and `extra` ones. -/
structure Shallow (cap : Option Nat) (extra : Nat) (rule : Rule α) : Prop where
  steady : Steady cap rule
  peak_le : ∀ s,
    (rule.run s).state.peak ≤ max s.peak (s.depth + 2 * s.cursor.remaining + extra)

theorem Shallow.mono {more : Nat} {rule : Rule α} (h : Shallow cap extra rule)
    (hle : extra ≤ more) : Shallow cap more rule where
  steady := h.steady
  peak_le s := by
    have hpeak := h.peak_le s
    omega

theorem shallow_pure (a : α) : Shallow cap extra (pure a : Rule α) :=
  ⟨steady_pure a, fun _ => Nat.le_max_left _ _⟩

theorem shallow_fail (error : ParseError) : Shallow cap extra (fail error : Rule α) :=
  ⟨steady_fail error, fun _ => Nat.le_max_left _ _⟩

theorem shallow_expect (kind : Token.Kind) (expected : Expectation) :
    Shallow cap extra (expect kind expected) :=
  ⟨steady_expect kind expected, fun s =>
    Nat.le_trans (Nat.le_of_eq (flat_expect kind expected s)) (Nat.le_max_left _ _)⟩

/-- Rules in a row share one bound: the second one starts with no more tokens to come than the
first. -/
theorem Shallow.bind {rule : Rule α} {next : α → Rule β} (hrule : Shallow cap extra rule)
    (hnext : ∀ a, Shallow cap extra (next a)) : Shallow cap extra (rule >>= next) where
  steady := hrule.steady.bind fun a => (hnext a).steady
  peak_le s := by
    have hfirst := hrule.peak_le s
    have hahead := hrule.steady s
    rw [run_bind]
    cases hrun : rule.run s with
    | ok a t =>
      rw [hrun] at hfirst hahead
      have hsecond := (hnext a).peak_le t
      have hremaining : t.cursor.remaining ≤ s.cursor.remaining := hahead.remaining_le
      have hdepth : t.depth = s.depth := hahead.depth_eq
      have hpeak : t.peak ≤ max s.peak (s.depth + 2 * s.cursor.remaining + extra) := hfirst
      dsimp only
      omega
    | error error t =>
      rw [hrun] at hfirst
      exact hfirst

/-- Nesting costs one level. -/
theorem peak_nested_le {rule : Rule α} {s : State}
    (h : (rule.run s.enter).state.peak ≤ max s.enter.peak (s.enter.depth + levels)) :
    ((nested cap rule).run s).state.peak ≤ max s.peak (s.depth + levels + 1) := by
  rcases room_or_reached cap s.depth with hroom | ⟨limit, rfl, hle⟩
  · have hinner : (rule.run s.enter).state.peak ≤
        max (max s.peak (s.depth + 1)) (s.depth + 1 + levels) := h
    rw [state_nested_of_lt s hroom]
    show (rule.run s.enter).state.peak ≤ _
    omega
  · -- the cap is reached, so the rule does not run at all
    rw [run_nested_of_le s hle]
    exact Nat.le_max_left _ _

/-- A nested rule takes one extra level. -/
theorem Shallow.nested {rule : Rule α} (h : Shallow cap extra rule) :
    Shallow cap (extra + 1) (nested cap rule) where
  steady := h.steady.nested
  peak_le s := by
    have hinner := h.peak_le s.enter
    rw [Nat.add_assoc] at hinner
    have hpeak : ((Rule.nested cap rule).run s).state.peak ≤ _ := peak_nested_le hinner
    rw [State.cursor_enter] at hpeak
    omega

/-- Behind a token a rule may take two levels more. -/
theorem Shallow.peak_le_advance {rule : Rule α} (h : Shallow cap 2 rule) {s : State} {token : Token}
    (hpeek : s.cursor.peek? = some token) :
    (rule.run s.advance).state.peak ≤ max s.peak (s.depth + 2 * s.cursor.remaining) := by
  have hpeak : _ ≤ max s.peak (s.depth + 2 * s.advance.cursor.remaining + 2) := h.peak_le s.advance
  have hless := State.remaining_advance_lt hpeek
  omega

/-! ## The bound, rule by rule -/

section Rules

variable (ops : Operators) {factor term operand expression : Rule Expr}

/-- Every operand of a chain stands behind an operator, so a chain takes no extra levels. -/
theorem shallow_chain (table : Token.Kind → Option BinaryOp) (hoperand : Shallow cap 2 operand)
    (left : Expr) : Shallow cap 0 (chain table operand left) := by
  have hwithin (bound : Nat) (left : Expr) :
      Shallow cap 0 (chainWithin table operand bound left) := by
    induction bound generalizing left with
    | zero => exact shallow_pure left
    | succ bound ih =>
      have hrest (op : BinaryOp) (location : Location) := hoperand.bind fun right =>
        (ih (.binary op left right location)).mono (Nat.zero_le 2)
      refine ⟨?_, fun s => ?_⟩
      · refine (steady_operator? table).bind fun found => ?_
        cases found with
        | none => exact steady_pure left
        | some pair => exact (hrest pair.1 pair.2).steady
      · rw [chainWithin_succ, run_operator?]
        cases hpeek : s.cursor.peek? with
        | none => exact Nat.le_max_left _ _
        | some token =>
          dsimp only
          cases table token.kind with
          | none => exact Nat.le_max_left _ _
          | some op => exact (hrest op token.location).peak_le_advance hpeek
  exact ⟨steady_chain table hoperand.steady left, fun s => (hwithin _ left).peak_le s⟩

/-- The right operand of a product takes two extra levels at most: a nested term takes one more than
a factor. -/
theorem shallow_productOperand (hfactor : Shallow cap 1 factor) (hterm : Shallow cap 1 term) :
    Shallow cap 2 (productOperand ops cap factor term) := by
  unfold productOperand
  cases ops.grouping
  · exact hfactor.mono (Nat.le_succ 1)
  · exact hterm.nested

/-- A term takes the extra level of its first factor, and its chain takes none. -/
theorem shallow_termWithin (hfactor : Shallow cap 1 factor) (bound : Nat) :
    Shallow cap 1 (termWithin ops cap factor bound) := by
  induction bound with
  | zero => exact hfactor
  | succ bound ih =>
    exact hfactor.bind fun left =>
      (shallow_chain _ (shallow_productOperand ops hfactor ih) left).mono (Nat.zero_le 1)

/-- An expression takes its own level and that of its first factor. -/
theorem shallow_sumOf (hterm : Shallow cap 1 term) : Shallow cap 2 (sumOf ops cap term) :=
  (hterm.bind fun left =>
    (shallow_chain _ (hterm.mono (Nat.le_succ 1)) left).mono (Nat.zero_le 1)).nested

/-- The parts of a factor stand behind its first token, so its body takes no extra levels. -/
theorem shallow_factorOf (hexpression : Shallow cap 2 expression) (hfactor : Shallow cap 1 factor) :
    Shallow cap 1 (factorOf cap expression factor) where
  steady := steady_factorOf hexpression.steady hfactor.steady
  peak_le s := by
    rw [factorOf_eq]
    refine peak_nested_le ?_
    show _ ≤ max s.enter.peak (s.enter.depth + 2 * s.enter.cursor.remaining)
    dsimp only
    cases hpeek : s.enter.cursor.peek? with
    | none => exact Nat.le_max_left _ _
    | some token =>
      dsimp only
      split
      · have hclose (inner : Expr) : Shallow cap 2
            (expect .closeParen .closeParen >>= fun _ => pure inner) :=
          (shallow_expect _ _).bind fun _ => shallow_pure inner
        exact (hexpression.bind hclose).peak_le_advance hpeek
      · exact Nat.le_max_left _ _
      · split
        · exact ((hfactor.mono (Nat.le_succ 1)).bind fun _ => shallow_pure _).peak_le_advance hpeek
        · exact Nat.le_max_left _ _

/-- A factor takes its own level. -/
theorem shallow_factorWithin (bound : Nat) : Shallow cap 1 (factorWithin ops cap bound) := by
  induction bound with
  | zero => exact (shallow_fail _).nested
  | succ bound ih =>
    exact shallow_factorOf (shallow_sumOf ops (shallow_termWithin ops ih bound)) ih

theorem shallow_expression (cap : Option Nat) : Shallow cap 2 (Rule.expression ops cap) := by
  have hfactor : Shallow cap 1 (Rule.factor ops cap) :=
    ⟨fun s => (shallow_factorWithin ops s.cursor.remaining).steady s,
      fun s => (shallow_factorWithin ops s.cursor.remaining).peak_le s⟩
  have hterm : Shallow cap 1 (Rule.term ops cap) :=
    ⟨fun s => (shallow_termWithin ops hfactor s.cursor.remaining).steady s,
      fun s => (shallow_termWithin ops hfactor s.cursor.remaining).peak_le s⟩
  exact shallow_sumOf ops hterm

end Rules

/-! ## The bound from below -/

/-- Where a token of some kind comes first, the cursor can see it and move past it. -/
theorem of_cons_prefix_kinds {cursor : Cursor} {kind : Token.Kind} {kinds : List Token.Kind}
    (h : kind :: kinds <+: cursor.rest.map Token.kind) :
    ∃ token, cursor.peek? = some token ∧ token.kind = kind ∧
      kinds <+: cursor.advance.rest.map Token.kind := by
  obtain ⟨consumed, rest⟩ := cursor
  cases rest with
  | nil => exact absurd h (by simp)
  | cons token rest =>
    rw [List.map_cons, List.cons_prefix_cons] at h
    exact ⟨token, rfl, h.1.symm, h.2⟩

/-- From a state before tokens of these kinds the rule nests at least so many levels. -/
def Reaches (kinds : List Token.Kind) (levels : Nat) (rule : Rule α) : Prop :=
  ∀ s, kinds <+: s.cursor.rest.map Token.kind → s.depth + levels ≤ (rule.run s).state.peak

/-- A sequence reaches as deep as its first part. What comes later does not take that back. -/
theorem Reaches.bind {kinds : List Token.Kind} {rule : Rule α} {next : α → Rule β}
    (h : Reaches kinds levels rule) (hnext : ∀ a, Steady cap (next a)) :
    Reaches kinds levels (rule >>= next) := by
  intro s hkinds
  have hfirst := h s hkinds
  rw [run_bind]
  cases hrun : rule.run s with
  | ok a t =>
    rw [hrun] at hfirst
    exact Nat.le_trans hfirst (hnext a t).peak_le
  | error error t =>
    rw [hrun] at hfirst
    exact hfirst

/-- Without a cap a nested rule reaches one level more. -/
theorem Reaches.nested {kinds : List Token.Kind} {rule : Rule α} (h : Reaches kinds levels rule) :
    Reaches kinds (levels + 1) (nested none rule) := by
  intro s hkinds
  have hinner : s.depth + 1 + levels ≤ (rule.run s.enter).state.peak := h s.enter hkinds
  rw [state_nested_of_lt s (by simp)]
  show _ ≤ (rule.run s.enter).state.peak
  omega

section Parentheses

variable (ops : Operators) (k : Nat)

/-- What an expression begins with reaches one level more in the expression. -/
theorem Reaches.expression {kinds : List Token.Kind} (h : Reaches kinds levels (factor ops none)) :
    Reaches kinds (levels + 1) (expression ops none) := by
  have hfactor : Steady none (factor ops none) := steady_factor ops
  have hterm : Steady none (term ops none) := steady_term ops
  have hleft : Reaches kinds levels (term ops none) := by
    rw [term_eq]
    exact h.bind (steady_chain _ (steady_productOperand ops hfactor hterm))
  exact (hleft.bind (steady_chain _ hterm)).nested

/-- A row of opening parentheses takes two levels for each, and one for the factor behind it. -/
theorem reaches_factor : Reaches (List.replicate k .openParen) (2 * k + 1) (factor ops none) := by
  induction k with
  | zero =>
    intro s _
    rw [factor_eq]
    exact lt_peak_nested (steady_factorOf (steady_expression ops) (steady_factor ops)) (by simp)
  | succ k ih =>
    have hinner : Reaches (List.replicate k .openParen) (2 * k + 2)
        (expression ops none >>= fun inner =>
          expect .closeParen .closeParen >>= fun _ => pure inner) :=
      (ih.expression ops).bind fun inner => (steady_expect _ _).bind fun _ =>
        (steady_pure inner : Steady none _)
    rw [factor_eq, factorOf_eq]
    refine Reaches.nested fun s hkinds => ?_
    obtain ⟨token, hpeek, hkind, hbehind⟩ := of_cons_prefix_kinds hkinds
    dsimp only
    rw [hpeek]
    dsimp only
    rw [hkind]
    exact hinner s.advance hbehind

/-- In an expression a row of parentheses takes two levels for each, one for the factor behind it,
and one for the expression around it. -/
theorem reaches_expression :
    Reaches (List.replicate k .openParen) (2 * k + 2) (expression ops none) :=
  (reaches_factor ops k).expression ops

end Parentheses

/-! ## Rules behind a header -/

/-- The rule looks for tokens of these kinds first. Without them it does not nest at all; with them
it nests as the inner rule does behind them. -/
def Guards (kinds : List Token.Kind) (inner : Rule α) (rule : Rule β) : Prop :=
  ∀ s, (∃ tokens t, tokens.map Token.kind = kinds ∧ s.Past tokens 0 t ∧
      (rule.run s).state.peak = (inner.run t).state.peak) ∨
    (¬ kinds <+: s.cursor.rest.map Token.kind ∧ (rule.run s).state.peak = s.peak)

theorem Guards.refl (rule : Rule α) : Guards [] rule rule :=
  fun s => .inl ⟨[], s, rfl, .refl s, rfl⟩

/-- What does not nest may follow. -/
theorem Guards.bind {γ : Type} {kinds : List Token.Kind} {inner : Rule α} {rule : Rule β}
    {next : β → Rule γ} (h : Guards kinds inner rule) (hnext : ∀ b, Flat (next b)) :
    Guards kinds inner (rule >>= next) := by
  intro s
  have hpeak : ((rule >>= next).run s).state.peak = (rule.run s).state.peak := by
    rw [run_bind]
    cases hrun : rule.run s with
    | ok b t => exact hnext b t
    | error error t => rfl
  rw [hpeak]
  exact h s

/-- To look for a token first adds its kind to the header. -/
theorem Guards.expect {kind : Token.Kind} {kinds : List Token.Kind} {expected : Expectation}
    {inner : Rule α} {next : Token → Rule β} (h : ∀ token, Guards kinds inner (next token)) :
    Guards (kind :: kinds) inner (expect kind expected >>= next) := by
  intro s
  rw [run_bind, run_expect]
  cases hpeek : s.cursor.peek? with
  | none =>
    refine .inr ⟨fun hkinds => ?_, rfl⟩
    obtain ⟨token, htoken, -, -⟩ := of_cons_prefix_kinds hkinds
    simp [hpeek] at htoken
  | some token =>
    by_cases hkind : token.kind = kind
    · dsimp only
      rw [if_pos hkind]
      dsimp only
      obtain ⟨tokens, t, rfl, hpast, hpeak⟩ | ⟨hkinds, hpeak⟩ := h token s.advance
      · exact .inl ⟨token :: tokens, t, by rw [List.map_cons, hkind],
          (State.past_advance hpeek).trans hpast, hpeak⟩
      · refine .inr ⟨fun hall => ?_, hpeak⟩
        obtain ⟨-, -, -, hbehind⟩ := of_cons_prefix_kinds hall
        exact hkinds hbehind
    · dsimp only
      rw [if_neg hkind]
      refine .inr ⟨fun hkinds => ?_, rfl⟩
      obtain ⟨first, hfirst, hkind', -⟩ := of_cons_prefix_kinds hkinds
      obtain rfl : token = first := Option.some.inj (hpeek.symm.trans hfirst)
      exact hkind hkind'

/-! ## Programs -/

/-- The kinds of the tokens that a program begins with. -/
def header : List Token.Kind :=
  [.intKeyword, .identifier, .openParen, .closeParen, .openBrace, .returnKeyword]

/-- **Only the expression behind the header nests.** -/
theorem guards_program (cap : Option Nat) (ops : Operators) (strict : Bool) :
    Guards header (expression ops cap) (program ops cap strict) := by
  have hstatement : Guards [.returnKeyword] (expression ops cap) (statement ops cap) :=
    Guards.expect fun _ => (Guards.refl _).bind fun _ => (flat_expect _ _).bind fun _ => flat_pure _
  have hfunction : Guards header (expression ops cap) (function ops cap) :=
    Guards.expect fun _ => Guards.expect fun _ => Guards.expect fun _ => Guards.expect fun _ =>
      Guards.expect fun _ => hstatement.bind fun _ => (flat_expect _ _).bind fun _ => flat_pure _
  intro s
  rw [program, run_bind]
  dsimp only [cursor]
  split
  next hnil =>
    -- an empty list is refused before its header is looked for
    have hrest : s.cursor.rest = [] := (List.append_eq_nil_iff.1 hnil).2
    exact .inr ⟨by simp [header, hrest], rfl⟩
  next =>
    refine hfunction.bind (fun f => ?_) s
    cases strict
    · exact flat_pure _
    · exact flat_endOfInput.bind fun _ => flat_pure _

variable (ops : Operators) (strict : Bool) (s : State)

/-- Without a header the rule does not nest. -/
theorem peak_program_of_not_header (cap : Option Nat)
    (h : ¬ header <+: s.cursor.rest.map Token.kind) :
    ((program ops cap strict).run s).state.peak = s.peak := by
  obtain ⟨tokens, t, hkinds, hpast, -⟩ | ⟨-, hpeak⟩ := guards_program cap ops strict s
  · refine absurd ⟨t.cursor.rest.map Token.kind, ?_⟩ h
    rw [hpast.rest_eq, List.map_append, hkinds]
  · exact hpeak

/-- The rule nests at most two levels for every token behind the header, and two more. -/
theorem peak_program_le (cap : Option Nat) (h : header <+: s.cursor.rest.map Token.kind) :
    ((program ops cap strict).run s).state.peak + 10 ≤
      max (s.peak + 10) (s.depth + 2 * s.cursor.remaining) := by
  obtain ⟨tokens, t, hkinds, hpast, hpeak⟩ | ⟨hnot, -⟩ := guards_program cap ops strict s
  · have hinner := (shallow_expression ops cap).peak_le t
    have hremaining := hpast.remaining_eq
    -- the six tokens of the header come to twelve in the bound: ten, and two for the expression
    have hsix : tokens.length = 6 := by
      rw [← List.length_map, hkinds]
      rfl
    have hdepth : t.depth = s.depth := hpast.depth_eq
    have hpeak' : t.peak = max s.peak 0 := hpast.peak_eq
    omega
  · exact absurd h hnot

/-- A row of parentheses behind the header makes the rule nest that deep. -/
theorem le_peak_program {k : Nat}
    (h : header ++ List.replicate k .openParen <+: s.cursor.rest.map Token.kind) :
    s.depth + (2 * k + 2) ≤ ((program ops none strict).run s).state.peak := by
  obtain ⟨tokens, t, hkinds, hpast, hpeak⟩ | ⟨hnot, -⟩ := guards_program none ops strict s
  · rw [hpast.rest_eq, List.map_append, hkinds, List.prefix_append_right_inj] at h
    have hinner := reaches_expression ops k t h
    rw [hpeak, ← hpast.depth_eq]
    exact hinner
  · exact absurd ((List.prefix_append _ _).trans h) hnot

end Rule

end MiniC
