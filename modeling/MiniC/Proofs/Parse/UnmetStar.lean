import MiniC.Parse.Parser
import MiniC.Proofs.Parse.Stretch

/-!
# The star that no sum meets

The table of the legacy dialect lets a sum go on at a star. No sum ever comes to that: the term
before it takes the star first. The entry may as well be missing, and nothing that a parser does
would change.

## The crux

A chain ends only where its table has no operator for the next token. A term ends as a chain of
products does, so behind every term stands neither a star nor a slash, whatever the input. This
settles two questions at once. A sum looks at its table only behind a term, so what that table says
about the operators of products does not matter. And where the right operand of a product is a whole
term, the chain around it finds no operator behind that operand, so it turns at most once.

## The architecture

* **`Exhausts`** says that a rule leaves no operator of a table to come; **`exhausts_term`** says
  this of terms and the operators of products.
* **`ChainTurns`** and **`TermTurns`** count how often a chain, and the chain of a term, takes an
  operator; **`TermTurns.le_one`** is the bound where products group to the right.
* **`Operators.Alike`** relates tables that differ only in what sums do at the operators of
  products. **`alike_agree`** compares factors and terms under two such tables, from fewer tokens to
  more, and **`program_eq_of_alike`** is the equation for programs.
* **`no_sum_meets_star`** is the result.
-/

namespace MiniC

/-- Two tables that differ at most in what sums do at the operators of products. -/
structure Operators.Alike (ops ops' : Operators) : Prop where
  multiplicative_eq : ops'.multiplicative = ops.multiplicative
  grouping_eq : ops'.grouping = ops.grouping
  additive_eq : ∀ kind, ops.multiplicative kind = none → ops'.additive kind = ops.additive kind

namespace Dialect

/-- The tokens that continue a sum, but for the star of the legacy dialect. -/
def additiveWithoutStar (dialect : Dialect) (kind : Token.Kind) : Option BinaryOp :=
  if dialect = .legacy ∧ kind = .star then none else dialect.additive kind

def operatorsWithoutStar (dialect : Dialect) : Operators :=
  { dialect.operators with additive := dialect.additiveWithoutStar }

/-- A star belongs to products, so the two tables are alike. -/
theorem alike_operatorsWithoutStar (dialect : Dialect) :
    dialect.operators.Alike dialect.operatorsWithoutStar where
  multiplicative_eq := rfl
  grouping_eq := rfl
  additive_eq kind hkind := by
    refine if_neg ?_
    rintro ⟨-, rfl⟩
    cases hkind

end Dialect

namespace Rule

variable {α β : Type} {cap : Option Nat} {s : State} {left : Expr}
  {table table' taken : Token.Kind → Option BinaryOp} {operand operand' : Rule Expr}

/-! ## Behind a term -/

/-- Success leaves no operator of the table to come. -/
def Exhausts (table : Token.Kind → Option BinaryOp) (rule : Rule α) : Prop :=
  ∀ s a t, rule.run s = .ok a t → ∀ token ∈ t.cursor.peek?, table token.kind = none

/-- What is left to come behind a sequence is what its second part leaves. -/
theorem Exhausts.bind {rule : Rule α} {next : α → Rule β}
    (hnext : ∀ a, Exhausts table (next a)) : Exhausts table (rule >>= next) := by
  intro s b t hrun
  obtain ⟨a, u, -, hlast⟩ := bind_eq_ok hrun
  exact hnext a u b t hlast

theorem Exhausts.nested {rule : Rule α} (h : Exhausts table rule) (cap : Option Nat) :
    Exhausts table (nested cap rule) := by
  intro s a t hrun
  obtain ⟨u, hinside, rfl⟩ := nested_eq_ok hrun
  exact h s.enter a u hinside

/-- A chain goes on until its table has no operator for the next token. -/
theorem exhausts_chain (hoperand : NonGrowing operand) (left : Expr) :
    Exhausts table (chain table operand left) := by
  intro s e t hrun
  have hends : ChainEnds table operand (fun _ _ => True) ((chain table operand left).run s) :=
    chain_invariant table hoperand _ (fun _ _ _ _ _ _ _ _ _ _ => trivial) trivial
  rw [hrun] at hends
  exact hends.2

theorem nonGrowing_productOperand (ops : Operators) (cap : Option Nat) :
    NonGrowing (productOperand ops cap (factor ops cap) (term ops cap)) :=
  (consuming_productOperand ops cap (consuming_factor ops cap) (consuming_term ops cap)).nonGrowing

/-- **Behind a term stands no operator of a product.** -/
theorem exhausts_term (ops : Operators) (cap : Option Nat) :
    Exhausts ops.multiplicative (term ops cap) := by
  rw [term_eq]
  exact .bind (exhausts_chain (nonGrowing_productOperand ops cap))

/-! ## Turns of a chain -/

section Turns

variable {ops : Operators} {turns : Nat} {outcome : Outcome Expr}

/-- `ChainTurns table operand left s turns outcome`: the chain that goes on with `left` from `s`
takes an operator `turns` times, and ends with the outcome. -/
inductive ChainTurns (table : Token.Kind → Option BinaryOp) (operand : Rule Expr) :
    Expr → State → Nat → Outcome Expr → Prop where
  | stop {left : Expr} {s : State}
      (hnone : ∀ token ∈ s.cursor.peek?, table token.kind = none) :
      ChainTurns table operand left s 0 (.ok left s)
  | turn {left right : Expr} {s t : State} {token : Token} {op : BinaryOp} {turns : Nat}
      {outcome : Outcome Expr} (hpeek : s.cursor.peek? = some token)
      (hop : table token.kind = some op) (hright : operand.run s.advance = .ok right t)
      (hrest : ChainTurns table operand (.binary op left right token.location) t turns outcome) :
      ChainTurns table operand left s (turns + 1) outcome
  | broken {left : Expr} {s t : State} {token : Token} {op : BinaryOp} {error : ParseError}
      (hpeek : s.cursor.peek? = some token) (hop : table token.kind = some op)
      (hright : operand.run s.advance = .error error t) :
      ChainTurns table operand left s 1 (.error error t)

/-- `TermTurns ops cap s turns outcome`: the term that is read from `s` takes an operator `turns`
times in its chain, and ends with the outcome. Without a first factor there is no chain. -/
inductive TermTurns (ops : Operators) (cap : Option Nat) (s : State) :
    Nat → Outcome Expr → Prop where
  | refused {error : ParseError} {t : State} (hfactor : (factor ops cap).run s = .error error t) :
      TermTurns ops cap s 0 (.error error t)
  | chained {left : Expr} {t : State} {turns : Nat} {outcome : Outcome Expr}
      (hfactor : (factor ops cap).run s = .ok left t)
      (hchain : ChainTurns ops.multiplicative
        (productOperand ops cap (factor ops cap) (term ops cap)) left t turns outcome) :
      TermTurns ops cap s turns outcome

/-- What the turns lead to is what the chain does. -/
theorem ChainTurns.run_eq (hoperand : NonGrowing operand)
    (h : ChainTurns table operand left s turns outcome) :
    (chain table operand left).run s = outcome := by
  induction h with
  | stop hnone => exact run_chain_of_none hoperand hnone _
  | turn hpeek hop hright _ ih => rw [run_chain_of_some hoperand hpeek hop hright, ih]
  | broken hpeek hop hright =>
    rw [run_chain_eq hoperand, hpeek]
    dsimp only
    rw [hop]
    dsimp only
    rw [hright]

/-- Every chain takes some number of turns. -/
theorem exists_chainTurns (hoperand : NonGrowing operand) (left : Expr) (s : State) :
    ∃ turns, ChainTurns table operand left s turns ((chain table operand left).run s) := by
  -- every turn consumes a token, so the induction is on the tokens to come
  induction hn : s.cursor.remaining using Nat.strongRecOn generalizing left s with
  | ind n ih =>
    rw [run_chain_eq hoperand]
    cases hpeek : s.cursor.peek? with
    | none => exact ⟨0, .stop (by simp [hpeek])⟩
    | some token =>
      dsimp only
      cases hop : table token.kind with
      | none => exact ⟨0, .stop (by simp [hpeek, hop])⟩
      | some op =>
        dsimp only
        cases hright : operand.run s.advance with
        | error error t => exact ⟨1, .broken hpeek hop hright⟩
        | ok right t =>
          have hless := State.remaining_advance_lt hpeek
          have hle := hoperand s.advance right t hright
          obtain ⟨turns, hrest⟩ :=
            ih t.cursor.remaining (by omega) (.binary op left right token.location) t rfl
          exact ⟨turns + 1, .turn hpeek hop hright hrest⟩

/-- Where no operator follows an operand, a chain turns at most once. -/
theorem ChainTurns.le_one (hexhausts : Exhausts table operand)
    (h : ChainTurns table operand left s turns outcome) : turns ≤ 1 := by
  cases h with
  | stop => exact Nat.zero_le 1
  | broken => exact Nat.le_refl 1
  | turn hpeek hop hright hrest =>
    have hnone := hexhausts _ _ _ hright
    -- a second turn would begin with an operator behind the operand of the first
    cases hrest with
    | stop => exact Nat.le_refl 1
    | turn hpeek' hop' | broken hpeek' hop' =>
      rw [hnone _ hpeek'] at hop'
      cases hop'

theorem TermTurns.run_eq (h : TermTurns ops cap s turns outcome) :
    (term ops cap).run s = outcome := by
  rw [term_eq, run_bind]
  cases h with
  | refused hfactor => rw [hfactor]
  | chained hfactor hchain =>
    rw [hfactor]
    exact hchain.run_eq (nonGrowing_productOperand ops cap)

/-- Every term takes some number of turns, none if it has no first factor. -/
theorem exists_termTurns (ops : Operators) (cap : Option Nat) (s : State) :
    ∃ turns, TermTurns ops cap s turns ((term ops cap).run s) := by
  rw [term_eq, run_bind]
  cases hfactor : (factor ops cap).run s with
  | error error t => exact ⟨0, .refused hfactor⟩
  | ok left t =>
    obtain ⟨turns, hchain⟩ := exists_chainTurns (nonGrowing_productOperand ops cap) left t
    exact ⟨turns, .chained hfactor hchain⟩

/-- **A product that groups to the right is one turn of its chain at most.** -/
theorem TermTurns.le_one (hright : ops.grouping = .right)
    (h : TermTurns ops cap s turns outcome) : turns ≤ 1 := by
  cases h with
  | refused => exact Nat.zero_le 1
  | chained _ hchain =>
    refine hchain.le_one ?_
    unfold productOperand
    rw [hright]
    exact (exhausts_term ops cap).nested cap

end Turns

/-! ## Tables that are alike -/

/-- Two chains agree if their operands do, and their tables do behind an operand. -/
theorem chain_agree_of_exhausts (hoperand : NonGrowing operand) (hoperand' : NonGrowing operand')
    (hexhausts : Exhausts taken operand)
    (hsame : ∀ kind, taken kind = none → table' kind = table kind)
    (hs : ∀ token ∈ s.cursor.peek?, taken token.kind = none)
    (hagree : AgreeBelow s.cursor.remaining operand operand') :
    (chain table operand left).run s = (chain table' operand' left).run s := by
  -- the chains look at their tables at the start, and then only behind an operand
  induction hn : s.cursor.remaining using Nat.strongRecOn generalizing left s with
  | ind n ih =>
    rw [run_chain_eq hoperand, run_chain_eq hoperand']
    cases hpeek : s.cursor.peek? with
    | none => rfl
    | some token =>
      have hless := State.remaining_advance_lt hpeek
      dsimp only
      rw [hsame token.kind (hs token hpeek)]
      cases table token.kind with
      | none => rfl
      | some op =>
        dsimp only
        rw [← hagree s.advance hless]
        cases hright : operand.run s.advance with
        | error => rfl
        | ok right t =>
          have hle := hoperand s.advance right t hright
          exact ih t.cursor.remaining (by omega) (hexhausts s.advance right t hright)
            (hagree.mono (by omega)) rfl

section Alike

variable {ops ops' : Operators} {k : Nat}

/-- A sum looks at its table only behind a term. -/
theorem alike_agree_expression (h : ops.Alike ops')
    (hterm : AgreeBelow k (term ops cap) (term ops' cap)) :
    AgreeBelow k (expression ops cap) (expression ops' cap) := by
  rw [expression_eq, expression_eq]
  refine AgreeBelow.nested (fun s hs => ?_) cap
  rw [run_bind, run_bind, ← hterm s hs]
  cases hrun : (term ops cap).run s with
  | error => rfl
  | ok left t =>
    have hless := consuming_term ops cap s left t hrun
    exact chain_agree_of_exhausts (consuming_term ops cap).nonGrowing
      (consuming_term ops' cap).nonGrowing (exhausts_term ops cap) h.additive_eq
      (exhausts_term ops cap s left t hrun) (hterm.mono (by omega))

/-- The right operands of a product stand behind its first factor, among fewer tokens. -/
theorem alike_agree_term (h : ops.Alike ops')
    (hfactor : AgreeBelow (k + 1) (factor ops cap) (factor ops' cap))
    (hterm : AgreeBelow k (term ops cap) (term ops' cap)) :
    AgreeBelow (k + 1) (term ops cap) (term ops' cap) := by
  have hoperand : AgreeBelow k (productOperand ops cap (factor ops cap) (term ops cap))
      (productOperand ops cap (factor ops' cap) (term ops' cap)) :=
    agree_productOperand ops cap (hfactor.mono (Nat.le_succ k)) hterm
  have hproduct : productOperand ops' cap (factor ops' cap) (term ops' cap) =
      productOperand ops cap (factor ops' cap) (term ops' cap) := by
    rw [productOperand, productOperand, h.grouping_eq]
  rw [term_eq ops, term_eq ops', hproduct, h.multiplicative_eq]
  intro s hs
  rw [run_bind, run_bind, ← hfactor s hs]
  cases hrun : (factor ops cap).run s with
  | error => rfl
  | ok left t =>
    have hless := consuming_factor ops cap s left t hrun
    exact chain_agree (nonGrowing_productOperand ops cap) hoperand left t (by omega)

/-- The induction behind `expression_eq_of_alike`, on the tokens to come: right operands and what is
in parentheses stand behind a token. -/
theorem alike_agree (h : ops.Alike ops') (k : Nat) :
    AgreeBelow k (factor ops cap) (factor ops' cap) ∧
      AgreeBelow k (term ops cap) (term ops' cap) := by
  induction k with
  | zero =>
    exact ⟨fun s hs => absurd hs (Nat.not_lt_zero _), fun s hs => absurd hs (Nat.not_lt_zero _)⟩
  | succ k ih =>
    obtain ⟨hfactor, hterm⟩ := ih
    -- a factor looks at an expression only behind its first token
    have hfactor' : AgreeBelow (k + 1) (factor ops cap) (factor ops' cap) := by
      rw [factor_eq ops, factor_eq ops']
      exact agree_factorOf cap (consuming_expression ops cap).nonGrowing
        (consuming_factor ops cap).nonGrowing (alike_agree_expression h hterm) hfactor
    exact ⟨hfactor', alike_agree_term h hfactor' hterm⟩

/-- Tables that are alike make the same rule for expressions. -/
theorem expression_eq_of_alike (h : ops.Alike ops') (cap : Option Nat) :
    expression ops' cap = expression ops cap := by
  ext s
  exact (alike_agree_expression h (alike_agree h _).2 s (Nat.lt_succ_self _)).symm

/-- **Tables that are alike make the same parser.** -/
theorem program_eq_of_alike (h : ops.Alike ops') (cap : Option Nat) (strict : Bool) :
    program ops' cap strict = program ops cap strict := by
  unfold program function statement
  rw [expression_eq_of_alike h]

end Alike

end Rule

namespace Parser

/-- Reads a program from where the parser stands, by a table of operators that need not be the one
of its dialect. -/
def parseProgramBy (ops : Operators) (parser : Parser) : Except ParseError Program × Parser :=
  match (Rule.program ops parser.settings.maxDepth parser.settings.strict).run parser.state with
  | .ok program state => (.ok program, { parser with state })
  | .error error state => (.error error, { parser with state })

/-- By the table of its own dialect a parser does what it always does. -/
theorem parseProgramBy_operators (parser : Parser) :
    parser.parseProgramBy parser.settings.dialect.operators = parser.parseProgram := rfl

/-- **No sum meets a star.** Wherever a term is read, at any place in any list and at any depth, the
next token is neither a star nor a slash, in either dialect and under every cap. So a parser whose
sums do not go on at a star in the legacy dialect does what the parser does: it has the same result,
and it is left in the same state, so at the same position. And a term of the legacy dialect takes an
operator at most once in its chain, whatever it comes to. -/
theorem no_sum_meets_star :
    (∀ (dialect : Dialect) (cap : Option Nat) (s t : Rule.State) (e : Expr),
      (Rule.term dialect.operators cap).run s = .ok e t →
        ∀ token ∈ t.cursor.peek?, token.kind ≠ .star ∧ token.kind ≠ .slash) ∧
    (∀ parser : Parser,
      parser.parseProgramBy parser.settings.dialect.operatorsWithoutStar = parser.parseProgram) ∧
    ∀ (cap : Option Nat) (s : Rule.State),
      let ops := Dialect.legacy.operators
      (∃ turns, Rule.TermTurns ops cap s turns ((Rule.term ops cap).run s)) ∧
        ∀ turns outcome, Rule.TermTurns ops cap s turns outcome →
          outcome = (Rule.term ops cap).run s ∧ turns ≤ 1 := by
  refine ⟨fun dialect cap s t e hrun token htoken => ?_, fun parser => ?_, fun cap s => ⟨?_, ?_⟩⟩
  · have hnone : Dialect.multiplicative token.kind = none :=
      Rule.exhausts_term dialect.operators cap s e t hrun token htoken
    constructor <;> intro hkind <;> rw [hkind] at hnone <;> cases hnone
  · rw [← parseProgramBy_operators, parseProgramBy, parseProgramBy,
      Rule.program_eq_of_alike (Dialect.alike_operatorsWithoutStar _)]
  · exact Rule.exists_termTurns Dialect.legacy.operators cap s
  · exact fun turns outcome h => ⟨h.run_eq.symm, h.le_one rfl⟩

end Parser

end MiniC
