import MiniC.Grammar.Derivation
import MiniC.Proofs.Parse.Stretch

/-!
# What the rules for expressions read

When the rule for a phrase succeeds, the tokens that it consumed derive the phrase, the value is
the tree of that derivation, the nesting it took is the number of frames of the derivation, and
the next token is none that the phrase could go on with. This holds in both dialects and under
every cap.

## The crux

A term is a chain of factors in either dialect, yet the grammar of the legacy dialect is
right-recursive, and its sums may go on at a star, which the grammar does not allow. Both are
settled by what the token behind a term is *not*: behind a right operand that is a whole term
there is no star and no slash, so the chain of a legacy term turns at most once, and the star of a
legacy sum is never met.

## The architecture

* **`Phrase.Ends`** says which tokens may stand behind a phrase that was read as far as possible.
* **`Reads`** is the statement for one run, **`HasRead`** adds where it ends; `Reads.product`,
  `Reads.productTerm` and `Reads.sum` go once around a chain.
* **`hasRead_factor`, `hasRead_term`, `hasRead_expression`** carry the statement from fewer tokens
  to more, and **`hasRead`** is their induction.
-/

namespace MiniC

/-! ## Operators and their tokens -/

namespace Dialect

/-- The table of products has the operators that the grammar has, each at its own kind. -/
theorem multiplicative_eq_some {kind : Token.Kind} {op : BinaryOp} :
    multiplicative kind = some op ↔ Grammar.IsProductOp op ∧ kind = op.kind := by
  unfold multiplicative Grammar.IsProductOp
  cases kind <;> cases op <;> simp [BinaryOp.kind]

/-- Behind a term the operator of a sum is one that the grammar knows. -/
theorem isSumOp_of_additive {dialect : Dialect} {kind : Token.Kind} {op : BinaryOp}
    (hterm : multiplicative kind = none) (hop : dialect.additive kind = some op) :
    Grammar.IsSumOp dialect op ∧ kind = op.kind := by
  cases dialect <;> cases kind <;>
    simp_all [multiplicative, additive, Grammar.IsSumOp, BinaryOp.kind] <;> simp [← hop]

/-- The table of sums has the operators that the grammar has for sums, and products do not compete
for them. -/
theorem additive_of_isSumOp {dialect : Dialect} {op : BinaryOp}
    (hop : Grammar.IsSumOp dialect op) :
    dialect.additive op.kind = some op ∧ multiplicative op.kind = none := by
  cases dialect <;> cases op <;>
    simp_all [multiplicative, additive, Grammar.IsSumOp, BinaryOp.kind]

end Dialect

/-- Each unary operator has one kind of its own. -/
theorem Token.Kind.unaryOp?_eq_some {kind : Token.Kind} {op : UnaryOp} :
    kind.unaryOp? = some op ↔ kind = op.kind := by
  cases kind <;> cases op <;> simp [Token.Kind.unaryOp?, UnaryOp.kind]

namespace Grammar

/-- The next token is none that a phrase goes on with. -/
def Phrase.Ends (dialect : Dialect) (next : Option Token) : Phrase → Prop
  | .factor => True
  | .term => ∀ token ∈ next, Dialect.multiplicative token.kind = none
  | .expression =>
    ∀ token ∈ next,
      Dialect.multiplicative token.kind = none ∧ dialect.additive token.kind = none

/-- A closing parenthesis or a semicolon ends an expression in both dialects. -/
theorem Phrase.ends_of_closer {dialect : Dialect} {token : Token}
    (hkind : token.kind = .closeParen ∨ token.kind = .semicolon) :
    Phrase.expression.Ends dialect (some token) := by
  rintro _ ⟨⟩
  rcases hkind with hkind | hkind <;> rw [hkind] <;> cases dialect <;> exact ⟨rfl, rfl⟩

end Grammar

namespace Rule

open Grammar (Phrase Derives IsProductOp IsSumOp)

variable {dialect : Dialect} {cap : Option Nat} {phrase : Phrase} {s t u : State}

def ofPhrase (dialect : Dialect) (cap : Option Nat) : Phrase → Rule Expr
  | .expression => expression dialect.operators cap
  | .term => term dialect.operators cap
  | .factor => factor dialect.operators cap

/-- What stands on the right of an operator in a product. -/
def operandOf (dialect : Dialect) (cap : Option Nat) : Rule Expr :=
  productOperand dialect.operators cap (ofPhrase dialect cap .factor) (ofPhrase dialect cap .term)

theorem consuming_ofPhrase (dialect : Dialect) (cap : Option Nat) (phrase : Phrase) :
    Consuming (ofPhrase dialect cap phrase) := by
  cases phrase with
  | expression => exact consuming_expression dialect.operators cap
  | term => exact consuming_term dialect.operators cap
  | factor => exact consuming_factor dialect.operators cap

theorem consuming_operandOf (dialect : Dialect) (cap : Option Nat) :
    Consuming (operandOf dialect cap) :=
  consuming_productOperand dialect.operators cap (consuming_ofPhrase dialect cap .factor)
    (consuming_ofPhrase dialect cap .term)

/-- A term is a factor and a chain of right operands, under the names of this module. -/
theorem ofPhrase_term_eq (dialect : Dialect) (cap : Option Nat) :
    ofPhrase dialect cap .term =
      ofPhrase dialect cap .factor >>= chain Dialect.multiplicative (operandOf dialect cap) :=
  term_eq dialect.operators cap

theorem ofPhrase_expression_eq (dialect : Dialect) (cap : Option Nat) :
    ofPhrase dialect cap .expression =
      nested cap (ofPhrase dialect cap .term >>=
        chain dialect.additive (ofPhrase dialect cap .term)) :=
  expression_eq dialect.operators cap

theorem ofPhrase_factor_eq (dialect : Dialect) (cap : Option Nat) :
    ofPhrase dialect cap .factor =
      factorOf cap (ofPhrase dialect cap .expression) (ofPhrase dialect cap .factor) :=
  factor_eq dialect.operators cap

/-! ## What was read -/

/-- From `s` to `t` the tokens of a phrase with the tree `e` were consumed, and the cap left room
for the frames of their derivation. -/
def Reads (dialect : Dialect) (cap : Option Nat) (phrase : Phrase) (s : State) (e : Expr)
    (t : State) : Prop :=
  ∃ tokens frames, Derives dialect phrase tokens e frames ∧
    s.Past tokens (s.depth + frames) t ∧ ∀ limit ∈ cap, s.depth + frames ≤ limit

/-- A phrase was read as far as it goes. -/
def HasRead (dialect : Dialect) (cap : Option Nat) (phrase : Phrase) (s : State) (e : Expr)
    (t : State) : Prop :=
  Reads dialect cap phrase s e t ∧ phrase.Ends dialect t.cursor.peek?

/-- Success of the rule for a phrase means that the phrase was read, where fewer than `k` tokens
are to come. -/
def SoundBelow (dialect : Dialect) (cap : Option Nat) (k : Nat) (phrase : Phrase) : Prop :=
  ∀ s e t, s.cursor.remaining < k → (ofPhrase dialect cap phrase).run s = .ok e t →
    HasRead dialect cap phrase s e t

section Factors

variable {token closing : Token} {op : UnaryOp} {e : Expr}

/-- A literal was read, with one frame for the factor that it is. -/
theorem Reads.literal (hroom : ∀ limit ∈ cap, s.depth < limit)
    (hpeek : s.enter.cursor.peek? = some token) (hkind : token.kind = .intLiteral) :
    Reads dialect cap .factor s (.literal token.text token.location) s.enter.advance.leave :=
  ⟨_, _, .literal hkind, (State.past_advance hpeek).raise.nested, hroom⟩

/-- A sign and its operand were read, with one frame more than the operand takes. -/
theorem Reads.unary (hpeek : s.enter.cursor.peek? = some token) (hkind : token.kind = op.kind)
    (hoperand : Reads dialect cap .factor s.enter.advance e t) :
    Reads dialect cap .factor s (.unary op e token.location) t.leave := by
  obtain ⟨tokens, frames, hderives, hpast, hcap⟩ := hoperand
  have hall := (State.past_advance hpeek).trans hpast
  have hdepth : s.enter.advance.depth = s.enter.depth := rfl
  rw [hdepth, Nat.zero_max] at hall
  refine ⟨_, _, .unary hkind hderives, hall.nested, ?_⟩
  intro limit hlimit
  have hle : s.depth + 1 + frames ≤ limit := hcap limit hlimit
  omega

/-- An expression in parentheses was read, with one frame more than the expression takes. -/
theorem Reads.parens (hpeek : s.enter.cursor.peek? = some token)
    (hopen : token.kind = .openParen) (hinner : Reads dialect cap .expression s.enter.advance e t)
    (hpeek' : t.cursor.peek? = some closing) (hclose : closing.kind = .closeParen) :
    Reads dialect cap .factor s e t.advance.leave := by
  obtain ⟨tokens, frames, hderives, hpast, hcap⟩ := hinner
  have hall := ((State.past_advance hpeek).trans hpast).trans (State.past_advance hpeek')
  have hdepth : s.enter.advance.depth = s.enter.depth := rfl
  rw [hdepth, Nat.zero_max, Nat.max_zero] at hall
  refine ⟨_, _, .parens hopen hclose hderives, hall.nested, ?_⟩
  intro limit hlimit
  have hle : s.depth + 1 + frames ≤ limit := hcap limit hlimit
  omega

end Factors

section Chains

variable {sign : Token} {op : BinaryOp} {l r : Expr}

theorem Reads.term_of_factor (h : Reads dialect cap .factor s l t) :
    Reads dialect cap .term s l t := by
  obtain ⟨tokens, frames, hderives, hpast, hcap⟩ := h
  exact ⟨tokens, frames, .factor hderives, hpast, hcap⟩

/-- Once around the chain of a standard term: the factor takes the tree so far for its left
operand. -/
theorem Reads.product (hleft : Reads dialect cap .term s l t) (hdialect : dialect = .standard)
    (hpeek : t.cursor.peek? = some sign) (hop : Dialect.multiplicative sign.kind = some op)
    (hright : Reads dialect cap .factor t.advance r u) :
    Reads dialect cap .term s (.binary op l r sign.location) u := by
  obtain ⟨ltokens, lframes, hl, hlpast, hlcap⟩ := hleft
  obtain ⟨rtokens, rframes, hr, hrpast, hrcap⟩ := hright
  obtain ⟨hproduct, hsign⟩ := Dialect.multiplicative_eq_some.1 hop
  have hdepth : t.advance.depth = s.depth := hlpast.depth_eq
  refine ⟨_, _, .productLeft hdialect hproduct hsign hl hr, hlpast.operator hpeek hrpast, ?_⟩
  intro limit hlimit
  have hlle := hlcap limit hlimit
  have hrle := hrcap limit hlimit
  omega

/-- Once around the chain of a legacy term: the right operand is a term one level deeper. -/
theorem Reads.productTerm (hleft : Reads dialect cap .factor s l t)
    (hdialect : dialect = .legacy) (hpeek : t.cursor.peek? = some sign)
    (hop : Dialect.multiplicative sign.kind = some op)
    (hright : Reads dialect cap .term t.advance.enter r u) :
    Reads dialect cap .term s (.binary op l r sign.location) u.leave := by
  obtain ⟨ltokens, lframes, hl, hlpast, hlcap⟩ := hleft
  obtain ⟨rtokens, rframes, hr, hrpast, hrcap⟩ := hright
  obtain ⟨hproduct, hsign⟩ := Dialect.multiplicative_eq_some.1 hop
  have hdepth : t.advance.enter.depth = s.depth + 1 := by
    show t.depth + 1 = s.depth + 1
    rw [hlpast.depth_eq]
  refine ⟨_, _, .productRight hdialect hproduct hsign hl hr,
    hlpast.operator hpeek hrpast.nested, ?_⟩
  intro limit hlimit
  have hlle := hlcap limit hlimit
  have hrle := hrcap limit hlimit
  omega

/-- The chain of a sum runs one level inside of its expression, whose own frame is not counted
yet. -/
def SumReads (dialect : Dialect) (cap : Option Nat) (s : State) (e : Expr) (t : State) : Prop :=
  ∃ tokens frames, Derives dialect .expression tokens e (1 + frames) ∧
    s.Past tokens (s.depth + frames) t ∧ ∀ limit ∈ cap, s.depth + frames ≤ limit

/-- A first term was read, and the frame of the expression around it is still to be counted. -/
theorem Reads.sum_of_term (h : Reads dialect cap .term s l t) : SumReads dialect cap s l t := by
  obtain ⟨tokens, frames, hderives, hpast, hcap⟩ := h
  exact ⟨tokens, frames, .term hderives, hpast, hcap⟩

/-- Once around the chain of a sum. That no star follows the left operand is what makes the operator
one that the grammar has for sums. -/
theorem SumReads.sum (hleft : SumReads dialect cap s l t)
    (hends : Phrase.term.Ends dialect t.cursor.peek?) (hpeek : t.cursor.peek? = some sign)
    (hop : dialect.additive sign.kind = some op)
    (hright : Reads dialect cap .term t.advance r u) :
    SumReads dialect cap s (.binary op l r sign.location) u := by
  obtain ⟨ltokens, lframes, hl, hlpast, hlcap⟩ := hleft
  obtain ⟨rtokens, rframes, hr, hrpast, hrcap⟩ := hright
  obtain ⟨hsum, hsign⟩ := Dialect.isSumOp_of_additive (hends sign hpeek) hop
  have hdepth : t.advance.depth = s.depth := hlpast.depth_eq
  have hderives := Derives.sum hsum hsign hl hr
  rw [Nat.add_max_add_left] at hderives
  refine ⟨_, _, hderives, hlpast.operator hpeek hrpast, ?_⟩
  intro limit hlimit
  have hlle := hlcap limit hlimit
  have hrle := hrcap limit hlimit
  omega

/-- At the end of its chain the level of an expression is left and its frame counted. -/
theorem SumReads.leave (h : SumReads dialect cap s.enter l t) :
    Reads dialect cap .expression s l t.leave := by
  obtain ⟨tokens, frames, hderives, hpast, hcap⟩ := h
  refine ⟨tokens, 1 + frames, hderives, hpast.nested, ?_⟩
  intro limit hlimit
  have hle : s.depth + 1 + frames ≤ limit := hcap limit hlimit
  omega

end Chains

theorem Reads.remaining_le {e : Expr} (h : Reads dialect cap phrase s e t) :
    t.cursor.remaining ≤ s.cursor.remaining := by
  obtain ⟨tokens, frames, -, hpast, -⟩ := h
  rw [hpast.remaining_eq]
  exact Nat.le_add_left _ _

theorem SumReads.remaining_le {e : Expr} (h : SumReads dialect cap s e t) :
    t.cursor.remaining ≤ s.cursor.remaining := by
  obtain ⟨tokens, frames, -, hpast, -⟩ := h
  rw [hpast.remaining_eq]
  exact Nat.le_add_left _ _

/-! ## From fewer tokens to more -/

variable {k : Nat}

/-- A standard term folds its factors to the left as it reads them. -/
theorem hasRead_term_standard (hfactor : SoundBelow .standard cap (k + 1) .factor) :
    SoundBelow .standard cap (k + 1) .term := by
  intro s e t hs hrun
  rw [ofPhrase_term_eq] at hrun
  obtain ⟨left, u, hleft, hchain⟩ := bind_eq_ok hrun
  have hfirst := (hfactor s left u hs hleft).1.term_of_factor
  -- A right operand stands behind its sign, so fewer tokens are to come and `hfactor` applies.
  have hends := chain_invariant Dialect.multiplicative
    (consuming_operandOf .standard cap).nonGrowing (Reads .standard cap .term s)
    (fun l v sign op r w hl hpeek hop hr => by
      have hless := State.remaining_advance_lt hpeek
      have hle := hl.remaining_le
      exact hl.product rfl hpeek hop (hfactor v.advance r w (by omega) hr).1) hfirst
  rw [hchain] at hends
  exact hends

/-- A legacy term is a factor, or a factor, an operator and a whole term. -/
theorem hasRead_term_legacy (hfactor : SoundBelow .legacy cap (k + 1) .factor)
    (hterm : SoundBelow .legacy cap k .term) : SoundBelow .legacy cap (k + 1) .term := by
  intro s e t hs hrun
  rw [ofPhrase_term_eq] at hrun
  obtain ⟨left, u, hleft, hchain⟩ := bind_eq_ok hrun
  have hfirst := (hfactor s left u hs hleft).1
  -- Before the first turn the left operand is a factor; after it no operator follows any more.
  have hends := chain_invariant Dialect.multiplicative
    (consuming_operandOf .legacy cap).nonGrowing
    (fun l v => Reads .legacy cap .term s l v ∧
      (Reads .legacy cap .factor s l v ∨ Phrase.term.Ends .legacy v.cursor.peek?))
    (fun l v sign op r w hl hpeek hop hr => by
      obtain ⟨hl, hl' | hstop⟩ := hl
      · obtain ⟨w', hr', rfl⟩ := nested_eq_ok hr
        have hless := State.remaining_advance_lt hpeek
        have hle := hl.remaining_le
        have hread := hterm v.advance.enter r w'
          (by rw [State.cursor_enter]; omega) hr'
        exact ⟨hl'.productTerm rfl hpeek hop hread.1, .inr hread.2⟩
      · rw [hstop sign hpeek] at hop
        cases hop) ⟨hfirst.term_of_factor, .inl hfirst⟩
  rw [hchain] at hends
  exact ⟨hends.1.1, hends.2⟩

theorem hasRead_term (hfactor : SoundBelow dialect cap (k + 1) .factor)
    (hterm : SoundBelow dialect cap k .term) : SoundBelow dialect cap (k + 1) .term := by
  cases dialect with
  | standard => exact hasRead_term_standard hfactor
  | legacy => exact hasRead_term_legacy hfactor hterm

/-- The chain of a sum keeps that its last operand is a term read as far as it goes. -/
theorem hasRead_expression (hterm : SoundBelow dialect cap k .term) :
    SoundBelow dialect cap k .expression := by
  intro s e t hs hrun
  rw [ofPhrase_expression_eq] at hrun
  obtain ⟨t', hinside, rfl⟩ := nested_eq_ok hrun
  obtain ⟨left, u, hleft, hchain⟩ := bind_eq_ok hinside
  have hfirst := hterm s.enter left u hs hleft
  -- Without the second half a star could be the next operator of a legacy sum.
  have hends := chain_invariant dialect.additive
    (consuming_ofPhrase dialect cap .term).nonGrowing
    (fun l v => SumReads dialect cap s.enter l v ∧
      Phrase.term.Ends dialect v.cursor.peek?)
    (fun l v sign op r w hl hpeek hop hr => by
      have hless := State.remaining_advance_lt hpeek
      have hle : v.cursor.remaining ≤ s.cursor.remaining := hl.1.remaining_le
      have hread := hterm v.advance r w (by omega) hr
      exact ⟨hl.1.sum hl.2 hpeek hop hread.1, hread.2⟩) ⟨hfirst.1.sum_of_term, hfirst.2⟩
  rw [hchain] at hends
  obtain ⟨⟨hsum, hproduct⟩, hadditive⟩ := hends
  exact ⟨hsum.leave, fun token htoken => ⟨hproduct token htoken, hadditive token htoken⟩⟩

/-- A factor is read if what stands behind its first token is: there is a case for each sort of
token, and the first token makes the bound smaller. -/
theorem hasRead_factor (hexpression : SoundBelow dialect cap k .expression)
    (hfactor : SoundBelow dialect cap k .factor) : SoundBelow dialect cap (k + 1) .factor := by
  intro s e t hs hrun
  rw [ofPhrase_factor_eq, factorOf_eq] at hrun
  have hroom := lt_of_nested_eq_ok hrun
  obtain ⟨u, hbody, rfl⟩ := nested_eq_ok hrun
  refine ⟨?_, trivial⟩
  dsimp only at hbody
  split at hbody
  next => cases hbody
  next token hpeek =>
    have hless : s.enter.advance.cursor.remaining < s.cursor.remaining :=
      State.remaining_advance_lt hpeek
    -- the three forms of a factor, by its first token
    split at hbody
    next hkind =>
      obtain ⟨inner, v, hinner, hbehind⟩ := bind_eq_ok hbody
      obtain ⟨closing, w, hclose, hpure⟩ := bind_eq_ok hbehind
      obtain ⟨rfl, rfl⟩ := Outcome.ok.inj hpure
      obtain ⟨hpeek', hkind', rfl⟩ := expect_eq_ok hclose
      exact .parens hpeek hkind (hexpression _ _ _ (by omega) hinner).1 hpeek' hkind'
    next hkind =>
      obtain ⟨rfl, rfl⟩ := Outcome.ok.inj hbody
      exact .literal hroom hpeek hkind
    next =>
      split at hbody
      next op hop =>
        obtain ⟨operand, v, hoperand, hpure⟩ := bind_eq_ok hbody
        obtain ⟨rfl, rfl⟩ := Outcome.ok.inj hpure
        exact .unary hpeek (Token.Kind.unaryOp?_eq_some.1 hop)
          (hfactor _ _ _ (by omega) hoperand).1
      next => cases hbody

/-- **What success of a rule means.** -/
theorem hasRead (dialect : Dialect) (phrase : Phrase) {e : Expr}
    (hrun : (ofPhrase dialect cap phrase).run s = .ok e t) :
    HasRead dialect cap phrase s e t := by
  -- Factors and terms go up together: a term holds factors of the same bound, a factor holds an
  -- expression behind its first token, and an expression holds terms of its own bound.
  have hall (k : Nat) : SoundBelow dialect cap k .factor ∧ SoundBelow dialect cap k .term := by
    induction k with
    | zero => exact ⟨fun s e t hs => absurd hs (Nat.not_lt_zero _),
        fun s e t hs => absurd hs (Nat.not_lt_zero _)⟩
    | succ k ih =>
      have hfactor := hasRead_factor (hasRead_expression ih.2) ih.1
      exact ⟨hfactor, hasRead_term hfactor ih.2⟩
  obtain ⟨hfactor, hterm⟩ := hall (s.cursor.remaining + 1)
  cases phrase with
  | factor => exact hfactor s e t (Nat.lt_succ_self _) hrun
  | term => exact hterm s e t (Nat.lt_succ_self _) hrun
  | expression => exact hasRead_expression hterm s e t (Nat.lt_succ_self _) hrun

end Rule

end MiniC
