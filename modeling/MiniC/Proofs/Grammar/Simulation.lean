import MiniC.Parse.Steady
import MiniC.Proofs.Grammar.Walk
import MiniC.Proofs.Parse.Reading

/-!
# The rules follow the automaton

The rules call one another and remember on the stack where they have to go on; the automaton only
counts parentheses. Still every rule for a phrase leads the automaton from before an operand to
behind one, and where a rule stops with an error, the automaton is stuck at the same token, in a
state that waits for just what the error says was expected. Only the cap stops a rule where the
automaton could go on.

## The crux

A rule that was called from inside another one does not know who called it, so its error cannot
name what the caller would have accepted. It need not: before an operand every rule expects an
expression, and behind an operand no rule complains but the one that waits for a closing
parenthesis or for the semicolon. That one is reached only once the chains have passed on the
token, so the token is no operator (`HasRead`), and the automaton is stuck there as well.

## The architecture

* **`Walks`** is a walk of the automaton between two places of a cursor, **`FailsFrom`** a walk to
  the place of an error.
* **`Follows`** relates a rule to a pair of states; it goes through sequences, nested rules, chains
  and expected tokens.
* **`follows_factor`, `follows_term`, `follows_expression`** carry it from fewer tokens to more;
  **`follows_function`** adds the header and the closing tokens.
-/

namespace MiniC

namespace Rule

open Grammar (Automaton Phrase)

variable {α β : Type} {dialect : Dialect} {cap : Option Nat} {k parens : Nat}
  {state next last : Automaton} {c d e : Cursor} {error : ParseError} {token : Token}

/-! ## Walks between places -/

/-- The tokens between two places lead the automaton from one state to another. -/
def Walks (dialect : Dialect) (state : Automaton) (c : Cursor) (next : Automaton) (d : Cursor) :
    Prop :=
  ∃ tokens, c.rest = tokens ++ d.rest ∧ Automaton.walk dialect state tokens = some next

theorem Walks.refl (dialect : Dialect) (state : Automaton) (c : Cursor) :
    Walks dialect state c state c := ⟨[], rfl, rfl⟩

theorem Walks.trans (hcd : Walks dialect state c next d) (hde : Walks dialect next d last e) :
    Walks dialect state c last e := by
  obtain ⟨front, hfront, hwalk⟩ := hcd
  obtain ⟨back, hback, hwalk'⟩ := hde
  refine ⟨front ++ back, by rw [hfront, hback, List.append_assoc], ?_⟩
  rw [Automaton.walk_append hwalk, hwalk']

/-- One step of the automaton over the next token. -/
theorem Walks.advance (hpeek : c.peek? = some token)
    (hstep : Automaton.step? dialect state token.kind = some next) :
    Walks dialect state c next c.advance := by
  obtain ⟨consumed, rest⟩ := c
  cases rest with
  | nil => cases hpeek
  | cons first rest =>
    obtain rfl : first = token := Option.some.inj hpeek
    exact ⟨[first], rfl, Automaton.walk_cons_of_some hstep⟩

theorem Walks.remaining_le (h : Walks dialect state c next d) : d.remaining ≤ c.remaining := by
  obtain ⟨tokens, hrest, -⟩ := h
  rw [Cursor.remaining, Cursor.remaining, hrest, List.length_append]
  exact Nat.le_add_left _ _

/-- The errors that fit a state and what stands there: the automaton cannot go on, or an operand
would be nested too deep. -/
inductive Stops (dialect : Dialect) (cap : Option Nat) (state : Automaton) (c : Cursor) :
    ParseError → Prop where
  | unexpectedEnd (hpeek : c.peek? = none) :
      Stops dialect cap state c (.unexpectedEnd state.expected)
  | unexpectedToken {found : Token} (hpeek : c.peek? = some found)
      (hstep : Automaton.step? dialect state found.kind = none) :
      Stops dialect cap state c (.unexpectedToken state.expected found)
  | tooDeep {limit : Nat} (hlimit : limit ∈ cap) (hoperand : ∃ parens, state = .operand parens) :
      Stops dialect cap state c (.tooDeep limit c.location)

/-- From `c` the automaton gets to the place `d` of an error, and the error fits its state
there. -/
def FailsFrom (dialect : Dialect) (cap : Option Nat) (state : Automaton) (c : Cursor)
    (error : ParseError) (d : Cursor) : Prop :=
  ∃ last, Walks dialect state c last d ∧ last ≠ .accepted ∧ Stops dialect cap last d error

theorem FailsFrom.of_stops (hne : state ≠ .accepted) (hstops : Stops dialect cap state c error) :
    FailsFrom dialect cap state c error c :=
  ⟨state, .refl dialect state c, hne, hstops⟩

/-- An outcome agrees with the automaton: the tokens from `c` to its place lead there from the one
state to the other, or to where the automaton stops as well. -/
def Agrees (dialect : Dialect) (cap : Option Nat) (state : Automaton) (c : Cursor)
    (next : Automaton) : Outcome α → Prop
  | .ok _ t => Walks dialect state c next t.cursor
  | .error error t => FailsFrom dialect cap state c error t.cursor

/-- What agrees from the end of a walk on agrees from its start on. -/
theorem Walks.agrees {outcome : Outcome α} (hwalks : Walks dialect state c next d)
    (hagrees : Agrees dialect cap next d last outcome) :
    Agrees dialect cap state c last outcome := by
  cases outcome with
  | ok a t => exact hwalks.trans hagrees
  | error error t =>
    obtain ⟨stop, hrest, hne, hstops⟩ := hagrees
    exact ⟨stop, hwalks.trans hrest, hne, hstops⟩

/-! ## Rules that follow the automaton -/

/-- With fewer than `k` tokens to come, a rule leads the automaton from one state to another, or
stops where the automaton does. -/
def Follows (dialect : Dialect) (cap : Option Nat) (k : Nat) (state : Automaton) (rule : Rule α)
    (next : Automaton) : Prop :=
  ∀ s : State, s.cursor.remaining < k →
    Agrees dialect cap state s.cursor next (rule.run s)

section Follows

variable {rule : Rule α} {step : α → Rule β} {s t : State} {a : α} {kind : Token.Kind}
  {expected : Expectation}

/-- The agreement of a sequence: where the first part succeeds, the automaton has come to the state
in the middle, and the second part starts from there. -/
theorem agrees_bind (hrule : Agrees dialect cap state s.cursor next (rule.run s))
    (hstep : ∀ a t, rule.run s = .ok a t →
      Agrees dialect cap next t.cursor last ((step a).run t)) :
    Agrees dialect cap state s.cursor last ((rule >>= step).run s) := by
  rw [run_bind]
  cases hrun : rule.run s with
  | error error t =>
    rw [hrun] at hrule
    exact hrule
  | ok a t =>
    rw [hrun] at hrule
    exact Walks.agrees hrule (hstep a t hrun)

/-- Before an operand a nested rule either meets the cap or runs. -/
theorem agrees_nested
    (hrule : Agrees dialect cap (.operand parens) s.cursor next (rule.run s.enter)) :
    Agrees dialect cap (.operand parens) s.cursor next ((nested cap rule).run s) := by
  cases hrun : (nested cap rule).run s with
  | ok a t =>
    obtain ⟨u, hinside, rfl⟩ := nested_eq_ok hrun
    rw [hinside] at hrule
    exact hrule
  | error error t =>
    rcases nested_eq_error hrun with ⟨limit, hlimit, rfl, rfl⟩ | ⟨u, hinside, rfl⟩
    -- at the cap nothing was consumed, so the automaton is still before the operand
    · exact .of_stops nofun (.tooDeep hlimit ⟨parens, rfl⟩)
    · rw [hinside] at hrule
      exact hrule

/-- Looking for a token follows the automaton where no other token takes it further. -/
theorem agrees_expect (hne : state ≠ .accepted)
    (hstep : ∀ token ∈ s.cursor.peek?, Automaton.step? dialect state token.kind =
      if token.kind = kind then some next else none)
    (hexpected : state.expected = expected) :
    Agrees dialect cap state s.cursor next ((expect kind expected).run s) := by
  subst hexpected
  cases hrun : (expect kind state.expected).run s with
  | ok token t =>
    obtain ⟨hpeek, hkind, rfl⟩ := expect_eq_ok hrun
    exact Walks.advance hpeek (by rw [hstep token hpeek, if_pos hkind])
  | error error t =>
    obtain ⟨rfl, ⟨hpeek, rfl⟩ | ⟨token, hpeek, hkind, rfl⟩⟩ := expect_eq_error hrun
    · exact .of_stops hne (.unexpectedEnd hpeek)
    · exact .of_stops hne (.unexpectedToken hpeek (by rw [hstep token hpeek, if_neg hkind]))

theorem follows_pure (a : α) : Follows dialect cap k state (pure a : Rule α) state :=
  fun s _ => .refl dialect state s.cursor

/-- So rules in a row follow the automaton if each does between its two states. -/
theorem Follows.bind (hrule : Follows dialect cap k state rule next)
    (hstep : ∀ a, Follows dialect cap k next (step a) last) :
    Follows dialect cap k state (rule >>= step) last := by
  intro s hs
  refine agrees_bind (hrule s hs) fun a t hrun => hstep a t ?_
  have hwalks := hrule s hs
  rw [hrun] at hwalks
  exact Nat.lt_of_le_of_lt (Walks.remaining_le hwalks) hs

/-- A nested rule follows the automaton from an operand on, the only state where the cap may stop
it. -/
theorem Follows.nested (h : Follows dialect cap k (.operand parens) rule next) :
    Follows dialect cap k (.operand parens) (nested cap rule) next :=
  fun s hs => agrees_nested (h s.enter hs)

theorem Follows.mono {m : Nat} (h : Follows dialect cap m state rule next) (hle : k ≤ m) :
    Follows dialect cap k state rule next :=
  fun s hs => h s (Nat.lt_of_lt_of_le hs hle)

/-- A chain leads from behind an operand to behind an operand, provided that all its operators lead
the automaton back to an operand. The induction is on the tokens to come, and the operand has one
token less. -/
theorem follows_chain {table : Token.Kind → Option BinaryOp} {operand : Rule Expr}
    (hgrowing : NonGrowing operand)
    (htable : ∀ kind op, table kind = some op →
      Automaton.step? dialect (.after parens) kind = some (.operand parens))
    (hoperand : Follows dialect cap k (.operand parens) operand (.after parens)) (left : Expr) :
    Follows dialect cap (k + 1) (.after parens) (chain table operand left) (.after parens) := by
  intro s hs
  -- Past an operator there are fewer tokens, so a right operand runs below `k`.
  have hright (v : State) (sign : Token) (op : BinaryOp)
      (hv : Walks dialect (.after parens) s.cursor (.after parens) v.cursor)
      (hpeek : v.cursor.peek? = some sign) (hop : table sign.kind = some op) :
      Agrees dialect cap (.after parens) s.cursor (.after parens) (operand.run v.advance) := by
    have hless := State.remaining_advance_lt hpeek
    have hle := hv.remaining_le
    exact (hv.trans (.advance hpeek (htable _ _ hop))).agrees (hoperand v.advance (by omega))
  have hends : ChainEnds table operand
      (fun _ v => Walks dialect (.after parens) s.cursor (.after parens) v.cursor)
      ((chain table operand left).run s) := by
    refine chain_invariant table hgrowing _ ?_ (.refl dialect (.after parens) s.cursor)
    intro _ v sign op _ w hv hpeek hop hr
    have hagrees := hright v sign op hv hpeek hop
    rw [hr] at hagrees
    exact hagrees
  cases hrun : (chain table operand left).run s with
  | ok tree t =>
    rw [hrun] at hends
    exact hends.1
  | error error t =>
    rw [hrun] at hends
    obtain ⟨_, v, sign, op, hv, hpeek, hop, hfail⟩ := hends
    have hagrees := hright v sign op hv hpeek hop
    rw [hfail] at hagrees
    exact hagrees

end Follows

/-! ## From fewer tokens to more -/

/-- Behind an operand every operator of a product leads to the next operand. -/
theorem step?_of_multiplicative {kind : Token.Kind} {op : BinaryOp}
    (hop : Dialect.multiplicative kind = some op) :
    Automaton.step? dialect (.after parens) kind = some (.operand parens) := by
  cases kind <;> first | rfl | cases hop

/-- So does every operator of a sum. The legacy table has a star among them, which the automaton
takes for a product. -/
theorem step?_of_additive {kind : Token.Kind} {op : BinaryOp}
    (hop : dialect.additive kind = some op) :
    Automaton.step? dialect (.after parens) kind = some (.operand parens) := by
  cases dialect <;> cases kind <;> first | rfl | cases hop

theorem step?_of_unaryOp? {kind : Token.Kind} {op : UnaryOp} (hop : kind.unaryOp? = some op) :
    Automaton.step? dialect (.operand parens) kind = some (.operand parens) := by
  cases kind <;> first | rfl | cases hop

/-! Behind an expression stands no operator. Then the automaton has one way to go on: closing a
parenthesis if one is open, and else ending the statement. -/

section Ends

variable {kind : Token.Kind} (hterm : Dialect.multiplicative kind = none)
  (hsum : dialect.additive kind = none)

include hterm hsum

/-- With no parenthesis open only the semicolon fits. -/
theorem step?_after_zero :
    Automaton.step? dialect (.after 0) kind =
      if kind = .semicolon then some .closing else none := by
  cases dialect <;> cases kind <;>
    simp_all [Dialect.multiplicative, Dialect.additive, Automaton.step?]

/-- With a parenthesis open only a closing one fits. -/
theorem step?_after_succ (parens : Nat) :
    Automaton.step? dialect (.after (parens + 1)) kind =
      if kind = .closeParen then some (.after parens) else none := by
  cases dialect <;> cases kind <;>
    simp_all [Dialect.multiplicative, Dialect.additive, Automaton.step?]

end Ends

/-- Before an operand only an opening parenthesis, a literal or a sign fits. -/
theorem step?_operand_of_none {kind : Token.Kind} (hparen : kind ≠ .openParen)
    (hliteral : kind ≠ .intLiteral) (hop : kind.unaryOp? = none) :
    Automaton.step? dialect (.operand parens) kind = none := by
  cases kind <;> first | rfl | exact absurd rfl hparen | exact absurd rfl hliteral | cases hop

/-- The rule for a phrase leads over an operand, where fewer than `k` tokens are to come. -/
def FollowsBelow (dialect : Dialect) (cap : Option Nat) (k : Nat) (phrase : Phrase) : Prop :=
  ∀ parens, Follows dialect cap k (.operand parens) (ofPhrase dialect cap phrase) (.after parens)

/-- The right operand of a product leads over one operand, be it a factor or a nested term. -/
theorem follows_operandOf (hfactor : FollowsBelow dialect cap k .factor)
    (hterm : FollowsBelow dialect cap k .term) (parens : Nat) :
    Follows dialect cap k (.operand parens) (operandOf dialect cap) (.after parens) := by
  cases dialect with
  | standard => exact hfactor parens
  | legacy => exact (hterm parens).nested

/-- A term leads over one operand if its factors do and its right operands, which have fewer tokens
to come, do. -/
theorem follows_term (hfactor : FollowsBelow dialect cap (k + 1) .factor)
    (hterm : FollowsBelow dialect cap k .term) : FollowsBelow dialect cap (k + 1) .term := by
  intro parens
  rw [ofPhrase_term_eq]
  exact (hfactor parens).bind (follows_chain (consuming_operandOf dialect cap).nonGrowing
    (fun _ _ => step?_of_multiplicative)
    (follows_operandOf (fun parens => (hfactor parens).mono (Nat.le_succ k)) hterm parens))

theorem follows_expression (hterm : FollowsBelow dialect cap k .term) :
    FollowsBelow dialect cap k .expression := by
  intro parens
  rw [ofPhrase_expression_eq]
  have hchain := follows_chain (consuming_ofPhrase dialect cap .term).nonGrowing
    (fun _ _ => step?_of_additive) (hterm parens)
  exact ((hterm parens).bind fun left => (hchain left).mono (Nat.le_succ k)).nested

/-- Behind an expression no operator stands, so the token that closes it decides where the automaton
goes. -/
theorem agrees_expect_behind {kind : Token.Kind} {expected : Expectation} {tree : Expr}
    {s t : State} (hrun : (ofPhrase dialect cap .expression).run s = .ok tree t)
    (hclose : ∀ other, Dialect.multiplicative other = none → dialect.additive other = none →
      Automaton.step? dialect (.after parens) other = if other = kind then some next else none)
    (hexpected : (Automaton.after parens).expected = expected) :
    Agrees dialect cap (.after parens) t.cursor next ((expect kind expected).run t) := by
  obtain ⟨-, hends⟩ := hasRead dialect .expression hrun
  refine agrees_expect nofun (fun token htoken => ?_) hexpected
  exact hclose token.kind (hends token htoken).1 (hends token htoken).2

/-- A factor leads over one operand if what stands behind its first token does. Parentheses take the
automaton one deeper and back. -/
theorem follows_factor (hexpression : FollowsBelow dialect cap k .expression)
    (hfactor : FollowsBelow dialect cap k .factor) :
    FollowsBelow dialect cap (k + 1) .factor := by
  intro parens s hs
  rw [ofPhrase_factor_eq, factorOf_eq]
  refine agrees_nested ?_
  dsimp only
  split
  next hpeek => exact .of_stops nofun (.unexpectedEnd hpeek)
  next token hpeek =>
    have hless : s.enter.advance.cursor.remaining < s.cursor.remaining :=
      State.remaining_advance_lt hpeek
    split
    next hkind =>
      -- one parenthesis more is open inside, and closing it leads behind this operand
      refine (Walks.advance hpeek (by rw [hkind]; rfl)).agrees
        (agrees_bind (hexpression (parens + 1) s.enter.advance (by omega)) ?_)
      intro tree t hrun
      exact agrees_bind
        (agrees_expect_behind hrun (fun _ hterm hsum => step?_after_succ hterm hsum parens) rfl)
        fun _ u _ => .refl dialect _ u.cursor
    next hkind => exact Walks.advance hpeek (by rw [hkind]; rfl)
    next hparen hliteral =>
      split
      next op hop =>
        exact (Walks.advance hpeek (step?_of_unaryOp? hop)).agrees
          (agrees_bind (hfactor parens s.enter.advance (by omega)) fun _ u _ =>
            .refl dialect _ u.cursor)
      next hop =>
        exact .of_stops nofun (.unexpectedToken hpeek (step?_operand_of_none hparen hliteral hop))

/-- **Every rule for a phrase follows the automaton over an operand.** -/
theorem follows_phrase (dialect : Dialect) (cap : Option Nat) (k : Nat) (phrase : Phrase) :
    FollowsBelow dialect cap k phrase := by
  -- the same climb as for `hasRead`
  have hall (k : Nat) :
      FollowsBelow dialect cap k .factor ∧ FollowsBelow dialect cap k .term := by
    induction k with
    | zero => exact ⟨fun _ s hs => absurd hs (Nat.not_lt_zero _),
        fun _ s hs => absurd hs (Nat.not_lt_zero _)⟩
    | succ k ih =>
      have hfactor := follows_factor (follows_expression ih.2) ih.1
      exact ⟨hfactor, follows_term hfactor ih.2⟩
  cases phrase with
  | factor => exact (hall k).1
  | term => exact (hall k).2
  | expression => exact follows_expression (hall k).2

/-! ## The function around the expression -/

/-- The states with a single way to go on: the tokens of the header, and the brace at the end. -/
inductive Requires : Automaton → Token.Kind → Automaton → Prop where
  | returnType : Requires .returnType .intKeyword .functionName
  | functionName : Requires .functionName .identifier .openParameters
  | openParameters : Requires .openParameters .openParen .closeParameters
  | closeParameters : Requires .closeParameters .closeParen .openBody
  | openBody : Requires .openBody .openBrace .returnKeyword
  | returnKeyword : Requires .returnKeyword .returnKeyword (.operand 0)
  | closing : Requires .closing .closeBrace .accepted

/-- In such a state all tokens but one are refused. -/
theorem Requires.step?_eq {kind : Token.Kind} (h : Requires state kind next) (other : Token.Kind) :
    Automaton.step? dialect state other = if other = kind then some next else none := by
  cases h <;> cases other <;> rfl

/-- So the rule that looks for that token follows the automaton. -/
theorem Requires.follows_expect {kind : Token.Kind} (h : Requires state kind next) :
    Follows dialect cap k state (expect kind state.expected) next :=
  fun _ _ => agrees_expect (by cases h <;> exact nofun) (fun token _ => h.step?_eq token.kind) rfl

/-- A statement leads from its keyword to the brace that closes the function. At the semicolon no
parenthesis is open. -/
theorem follows_statement (dialect : Dialect) (cap : Option Nat) (k : Nat) :
    Follows dialect cap k .returnKeyword (statement dialect.operators cap) .closing := by
  refine Requires.returnKeyword.follows_expect.bind fun keyword s hs => ?_
  refine agrees_bind (follows_phrase dialect cap k .expression 0 s hs) fun tree t hrun => ?_
  exact agrees_bind
    (agrees_expect_behind hrun (fun _ hterm hsum => step?_after_zero hterm hsum) rfl)
    fun _ u _ => .refl dialect _ u.cursor

/-- **The rule for functions follows the automaton from start to end.** -/
theorem follows_function (dialect : Dialect) (cap : Option Nat) (k : Nat) :
    Follows dialect cap k .returnType (function dialect.operators cap) .accepted :=
  Requires.returnType.follows_expect.bind fun _ =>
    Requires.functionName.follows_expect.bind fun _ =>
    Requires.openParameters.follows_expect.bind fun _ =>
    Requires.closeParameters.follows_expect.bind fun _ =>
    Requires.openBody.follows_expect.bind fun _ =>
    (follows_statement dialect cap k).bind fun _ =>
    Requires.closing.follows_expect.bind fun _ => follows_pure _

end Rule

end MiniC
