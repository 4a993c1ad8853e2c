import MiniC.Proofs.Parse.Reading

/-!
# Every derivation is read

Where the tokens to come begin with the tokens of a phrase, and the token behind them is none that
the phrase could go on with, the rule for the phrase reads exactly these tokens and yields the tree
of the derivation, if the cap leaves room for its frames.

## The crux

The grammar of a standard term is left-recursive, and so is that of a sum, but a chain is read
from the left: when the rule has read the left part of a derivation it stands in the middle of its
chain and not at an end. The induction is therefore over what is left to do: behind the tokens of
a derivation the rule goes on as the chain does with the derived tree as its left operand
(`Resumes`). Only then does the token behind the phrase end the chain.
-/

namespace MiniC

namespace Rule

open Grammar (Phrase Derives)

variable {dialect : Dialect} {cap : Option Nat} {s t : State} {token : Token}

theorem State.peek?_of_rest {rest : List Token} (h : s.cursor.rest = token :: rest) :
    s.cursor.peek? = some token := by
  rw [Cursor.peek?, h, List.head?_cons]

theorem State.rest_advance {rest : List Token} (h : s.cursor.rest = token :: rest) :
    s.advance.cursor.rest = rest := by
  have hpast := State.past_advance (State.peek?_of_rest h)
  rw [hpast.rest_eq, List.singleton_append] at h
  exact (List.cons.inj h).2

/-! ## One factor -/

section Factor

variable (hroom : ∀ limit ∈ cap, s.depth < limit) (hpeek : s.cursor.peek? = some token)
include hroom hpeek

theorem run_factor_literal (hkind : token.kind = .intLiteral) :
    (ofPhrase dialect cap .factor).run s =
      .ok (.literal token.text token.location) s.enter.advance.leave := by
  rw [ofPhrase_factor_eq, factorOf_eq, run_nested_of_lt s hroom]
  dsimp only
  rw [State.cursor_enter, hpeek]
  dsimp only
  rw [hkind]

theorem run_factor_unary {op : UnaryOp} {e : Expr} (hkind : token.kind = op.kind)
    (hrun : (ofPhrase dialect cap .factor).run s.enter.advance = .ok e t) :
    (ofPhrase dialect cap .factor).run s = .ok (.unary op e token.location) t.leave := by
  rw [ofPhrase_factor_eq, factorOf_eq, run_nested_of_lt s hroom]
  dsimp only
  rw [State.cursor_enter, hpeek]
  dsimp only
  rw [hkind]
  cases op <;>
    · dsimp only [UnaryOp.kind, Token.Kind.unaryOp?]
      rw [run_bind, hrun]
      rfl

theorem run_factor_parens {closing : Token} {e : Expr} (hkind : token.kind = .openParen)
    (hrun : (ofPhrase dialect cap .expression).run s.enter.advance = .ok e t)
    (hpeek' : t.cursor.peek? = some closing) (hkind' : closing.kind = .closeParen) :
    (ofPhrase dialect cap .factor).run s = .ok e t.advance.leave := by
  rw [ofPhrase_factor_eq, factorOf_eq, run_nested_of_lt s hroom]
  dsimp only
  rw [State.cursor_enter, hpeek]
  dsimp only
  rw [hkind]
  dsimp only
  rw [run_bind, hrun]
  dsimp only
  rw [run_bind, run_expect_of_kind hpeek' hkind']
  rfl

end Factor

/-! ## What is left to do behind a derivation -/

/-- Behind the tokens of a phrase, with `rest` still to come, its rule goes on as the chain of the
phrase does. A factor has no chain. A right-recursive term is read as a whole, so there the token
behind it has to end it. -/
def Resumes (dialect : Dialect) (cap : Option Nat) (s : State) (rest tokens : List Token)
    (e : Expr) (frames : Nat) : Phrase → Prop
  | .factor =>
    ∃ t, s.Past tokens (s.depth + frames) t ∧ (ofPhrase dialect cap .factor).run s = .ok e t
  | .term =>
    dialect = .standard ∨ Phrase.term.Ends dialect rest.head? →
      ∃ t, s.Past tokens (s.depth + frames) t ∧
        (ofPhrase dialect cap .term).run s =
          (chain Dialect.multiplicative (operandOf dialect cap) e).run t
  | .expression =>
    ∃ inside, frames = 1 + inside ∧
      (Phrase.term.Ends dialect rest.head? →
        ∃ t, s.enter.Past tokens (s.enter.depth + inside) t ∧
          (ofPhrase dialect cap .term >>=
              chain dialect.additive (ofPhrase dialect cap .term)).run s.enter =
            (chain dialect.additive (ofPhrase dialect cap .term) e).run t)

variable {rest tokens : List Token} {e : Expr} {frames : Nat}

theorem State.Past.rest_eq_of_append {reached : Nat} (h : s.Past tokens reached t)
    (hrest : s.cursor.rest = tokens ++ rest) : t.cursor.rest = rest :=
  List.append_cancel_left (h.rest_eq.symm.trans hrest)

/-- A derivation of no more frames, read at no greater depth, finds room under the cap as well. -/
theorem room_of_le {depth depth' frames' : Nat} (hcap : ∀ limit ∈ cap, depth + frames ≤ limit)
    (hle : depth' + frames' ≤ depth + frames) : ∀ limit ∈ cap, depth' + frames' ≤ limit :=
  fun limit hlimit => Nat.le_trans hle (hcap limit hlimit)

theorem room_of_pos {depth : Nat} (hcap : ∀ limit ∈ cap, depth + frames ≤ limit)
    (hpos : 0 < frames) : ∀ limit ∈ cap, depth < limit :=
  fun limit hlimit => Nat.lt_of_lt_of_le (Nat.lt_add_of_pos_right hpos) (hcap limit hlimit)

/-- Behind a term that is ended by the next token, its chain is over. -/
theorem Resumes.term (h : Resumes dialect cap s rest tokens e frames .term)
    (hrest : s.cursor.rest = tokens ++ rest) (hends : Phrase.term.Ends dialect rest.head?) :
    ∃ t, s.Past tokens (s.depth + frames) t ∧ (ofPhrase dialect cap .term).run s = .ok e t := by
  obtain ⟨t, hpast, hrun⟩ := h (.inr hends)
  refine ⟨t, hpast, hrun.trans (run_chain_of_none (consuming_operandOf _ _).nonGrowing ?_ e)⟩
  rw [Cursor.peek?, hpast.rest_eq_of_append hrest]
  exact hends

/-- Behind an expression that is ended by the next token, both its chains are over, and its level is
left. -/
theorem Resumes.expression (h : Resumes dialect cap s rest tokens e frames .expression)
    (hrest : s.cursor.rest = tokens ++ rest)
    (hcap : ∀ limit ∈ cap, s.depth + frames ≤ limit)
    (hends : Phrase.expression.Ends dialect rest.head?) :
    ∃ t, s.Past tokens (s.depth + frames) t ∧
      (ofPhrase dialect cap .expression).run s = .ok e t := by
  obtain ⟨inside, rfl, hresume⟩ := h
  obtain ⟨t, hpast, hrun⟩ := hresume fun token htoken => (hends token htoken).1
  refine ⟨t.leave, hpast.nested, ?_⟩
  have hroom := room_of_pos hcap (by omega)
  have hstop : ∀ token ∈ t.cursor.peek?, dialect.additive token.kind = none := by
    rw [Cursor.peek?, hpast.rest_eq_of_append hrest]
    exact fun token htoken => (hends token htoken).2
  rw [ofPhrase_expression_eq, run_nested_of_lt s hroom, hrun,
    run_chain_of_none (consuming_ofPhrase _ _ _).nonGrowing hstop]

/-! ## The induction, one constructor at a time -/

section Cases

variable {sign : Token} {op : BinaryOp} {ltokens rtokens : List Token} {l r : Expr}
  {lframes rframes : Nat}

theorem resumes_literal (hkind : token.kind = .intLiteral)
    (hrest : s.cursor.rest = [token] ++ rest) (hroom : ∀ limit ∈ cap, s.depth + 1 ≤ limit) :
    Resumes dialect cap s rest [token] (.literal token.text token.location) 1 .factor := by
  have hpeek := State.peek?_of_rest hrest
  exact ⟨_, (State.past_advance (s := s.enter) hpeek).raise.nested,
    run_factor_literal hroom hpeek hkind⟩

/-- A sign is read with the factor behind it. -/
theorem resumes_unary {op : UnaryOp} (hsign : sign.kind = op.kind)
    (hrest : s.cursor.rest = sign :: tokens ++ rest) (hroom : ∀ limit ∈ cap, s.depth < limit)
    (hoperand : Resumes dialect cap s.enter.advance rest tokens e frames .factor) :
    Resumes dialect cap s rest (sign :: tokens) (.unary op e sign.location) (1 + frames)
      .factor := by
  have hpeek := State.peek?_of_rest hrest
  have hdepth : s.enter.advance.depth = s.enter.depth := rfl
  obtain ⟨t, hpast, hrun⟩ := hoperand
  have hall := (State.past_advance (s := s.enter) hpeek).trans hpast
  rw [hdepth, Nat.zero_max] at hall
  exact ⟨_, hall.nested, run_factor_unary hroom hpeek hsign hrun⟩

/-- Inside of parentheses the expression is read up to the closing one, which ends it. -/
theorem resumes_parens {closing : Token} (hopen : token.kind = .openParen)
    (hclose : closing.kind = .closeParen)
    (hrest : s.cursor.rest = token :: (tokens ++ closing :: rest))
    (hcap : ∀ limit ∈ cap, s.depth + (1 + frames) ≤ limit)
    (hinner : Resumes dialect cap s.enter.advance (closing :: rest) tokens e frames .expression) :
    Resumes dialect cap s rest (token :: tokens ++ [closing]) e (1 + frames) .factor := by
  have hpeek := State.peek?_of_rest hrest
  have hbehind : s.enter.advance.cursor.rest = tokens ++ closing :: rest :=
    State.rest_advance hrest
  have hdepth : s.enter.advance.depth = s.depth + 1 := rfl
  obtain ⟨t, hpast, hrun⟩ := hinner.expression hbehind (room_of_le hcap (by omega))
    (Phrase.ends_of_closer (.inl hclose))
  have hpeek' := State.peek?_of_rest (hpast.rest_eq_of_append hbehind)
  have hall := ((State.past_advance (s := s.enter) hpeek).trans hpast).trans
    (State.past_advance hpeek')
  rw [Nat.zero_max, Nat.max_zero] at hall
  exact ⟨_, hall.nested,
    run_factor_parens (room_of_pos hcap (by omega)) hpeek hopen hrun hpeek' hclose⟩

/-- A term that is one factor has all its operators still to come. -/
theorem resumes_term_of_factor (h : Resumes dialect cap s rest tokens e frames .factor) :
    Resumes dialect cap s rest tokens e frames .term := by
  intro _
  obtain ⟨t, hpast, hrun⟩ := h
  exact ⟨t, hpast, by rw [ofPhrase_term_eq, run_bind, hrun]⟩

/-- An expression that is one term has all its operators still to come, and its level is entered. -/
theorem resumes_expression_of_term (hrest : s.enter.cursor.rest = tokens ++ rest)
    (h : Resumes dialect cap s.enter rest tokens e frames .term) :
    Resumes dialect cap s rest tokens e (1 + frames) .expression := by
  refine ⟨frames, rfl, fun hends => ?_⟩
  obtain ⟨t, hpast, hrun⟩ := h.term hrest hends
  exact ⟨t, hpast, by rw [run_bind, hrun]⟩

/-- The chain of a standard term goes on behind its left part, takes the sign and one factor, and is
where it was, with a greater tree. -/
theorem resumes_productLeft (hop : Grammar.IsProductOp op) (hsign : sign.kind = op.kind)
    (hrest : s.cursor.rest = ltokens ++ sign :: (rtokens ++ rest))
    (hleft : Resumes .standard cap s (sign :: (rtokens ++ rest)) ltokens l lframes .term)
    (hright : ∀ {t : State}, t.depth = s.depth → t.cursor.rest = rtokens ++ rest →
      Resumes .standard cap t rest rtokens r rframes .factor) :
    Resumes .standard cap s rest (ltokens ++ sign :: rtokens) (.binary op l r sign.location)
      (max lframes rframes) .term := by
  intro _
  obtain ⟨t, hpast, hrun⟩ := hleft (.inl rfl)
  have htrest := hpast.rest_eq_of_append hrest
  have hpeek := State.peek?_of_rest htrest
  obtain ⟨u, hpast', hrun'⟩ :=
    hright (t := t.advance) hpast.depth_eq (State.rest_advance htrest)
  refine ⟨u, hpast.operator hpeek hpast', hrun.trans ?_⟩
  exact run_chain_of_some (consuming_operandOf .standard cap).nonGrowing hpeek
    (Dialect.multiplicative_eq_some.2 ⟨hop, hsign⟩) hrun' l

/-- A legacy term takes the sign, reads a whole term behind it one level deeper, and finds nothing
more to take. -/
theorem resumes_productRight (hop : Grammar.IsProductOp op) (hsign : sign.kind = op.kind)
    (hrest : s.cursor.rest = ltokens ++ sign :: (rtokens ++ rest))
    (hroom : ∀ limit ∈ cap, s.depth < limit)
    (hleft : Resumes .legacy cap s (sign :: (rtokens ++ rest)) ltokens l lframes .factor)
    (hright : ∀ {t : State}, t.depth = s.depth + 1 → t.cursor.rest = rtokens ++ rest →
      Resumes .legacy cap t rest rtokens r rframes .term) :
    Resumes .legacy cap s rest (ltokens ++ sign :: rtokens) (.binary op l r sign.location)
      (max lframes (1 + rframes)) .term := by
  intro hends
  have hends : Phrase.term.Ends .legacy rest.head? := hends.resolve_left nofun
  obtain ⟨t, hpast, hrun⟩ := hleft
  have htrest := hpast.rest_eq_of_append hrest
  have hpeek := State.peek?_of_rest htrest
  have hdepth : t.advance.enter.depth = s.depth + 1 := congrArg (· + 1) hpast.depth_eq
  have hbehind : t.advance.enter.cursor.rest = rtokens ++ rest := State.rest_advance htrest
  -- the right operand is a whole term: behind it the chain has nothing left to do
  obtain ⟨u, hpast', hrun'⟩ := (hright hdepth hbehind).term hbehind hends
  refine ⟨u.leave, hpast.operator hpeek hpast'.nested, ?_⟩
  have hoperand : (operandOf .legacy cap).run t.advance = .ok r u.leave := by
    have hroom' : ∀ limit ∈ cap, t.advance.depth < limit := by
      intro limit hlimit
      have hlt := hroom limit hlimit
      rw [show t.advance.depth = s.depth from hpast.depth_eq]
      exact hlt
    show (nested cap (ofPhrase .legacy cap .term)).run t.advance = _
    rw [run_nested_of_lt t.advance hroom', hrun']
  rw [ofPhrase_term_eq, run_bind, hrun]
  exact run_chain_of_some (consuming_operandOf _ _).nonGrowing hpeek
    (Dialect.multiplicative_eq_some.2 ⟨hop, hsign⟩) hoperand l

/-- The chain of a sum goes on behind its left part. The sign behind that part belongs to no
product, so the term before it is over. -/
theorem resumes_sum (hop : Grammar.IsSumOp dialect op) (hsign : sign.kind = op.kind)
    (hrest : s.cursor.rest = ltokens ++ sign :: (rtokens ++ rest))
    (hleft : Resumes dialect cap s (sign :: (rtokens ++ rest)) ltokens l lframes .expression)
    (hright : ∀ {t : State}, t.depth = s.depth + 1 → t.cursor.rest = rtokens ++ rest →
      Resumes dialect cap t rest rtokens r rframes .term) :
    Resumes dialect cap s rest (ltokens ++ sign :: rtokens) (.binary op l r sign.location)
      (max lframes (1 + rframes)) .expression := by
  obtain ⟨inside, rfl, hresume⟩ := hleft
  refine ⟨max inside rframes, Nat.add_max_add_left 1 inside rframes, fun hends => ?_⟩
  obtain ⟨hadditive, hmultiplicative⟩ := Dialect.additive_of_isSumOp hop
  rw [← hsign] at hadditive hmultiplicative
  -- behind the left part stands the sign, which no product goes on with
  obtain ⟨t, hpast, hrun⟩ := hresume (by
    rintro _ ⟨⟩
    exact hmultiplicative)
  have htrest := hpast.rest_eq_of_append hrest
  have hpeek := State.peek?_of_rest htrest
  have hdepth : t.advance.depth = s.depth + 1 := hpast.depth_eq
  have hbehind := State.rest_advance htrest
  obtain ⟨u, hpast', hrun'⟩ := (hright hdepth hbehind).term hbehind hends
  refine ⟨u, hpast.operator hpeek hpast', hrun.trans ?_⟩
  exact run_chain_of_some (consuming_ofPhrase _ _ _).nonGrowing hpeek hadditive hrun' l

end Cases

/-- Every derivation is read, up to what its chain has left to do. -/
theorem resumes_of_derives {phrase : Phrase} (h : Derives dialect phrase tokens e frames) :
    ∀ {s : State} {rest : List Token}, s.cursor.rest = tokens ++ rest →
      (∀ limit ∈ cap, s.depth + frames ≤ limit) →
      Resumes dialect cap s rest tokens e frames phrase := by
  -- Each part of a derivation is read at a depth that leaves it the frames the whole has left.
  induction h with
  | literal hkind => exact fun hrest hcap => resumes_literal hkind hrest hcap
  | @unary sign op tokens e frames hsign _ ih =>
    intro s rest hrest hcap
    have hbehind : s.enter.advance.cursor.rest = tokens ++ rest := State.rest_advance hrest
    have hdepth : s.enter.advance.depth = s.depth + 1 := rfl
    exact resumes_unary hsign hrest (room_of_pos hcap (by omega))
      (ih hbehind (room_of_le hcap (by omega)))
  | @parens opening closing tokens e frames hopen hclose _ ih =>
    intro s rest hrest hcap
    rw [List.append_assoc, List.cons_append, List.singleton_append] at hrest
    have hbehind : s.enter.advance.cursor.rest = tokens ++ closing :: rest :=
      State.rest_advance hrest
    have hdepth : s.enter.advance.depth = s.depth + 1 := rfl
    exact resumes_parens hopen hclose hrest hcap (ih hbehind (room_of_le hcap (by omega)))
  | factor _ ih => exact fun hrest hcap => resumes_term_of_factor (ih hrest hcap)
  | @productLeft sign op ltokens rtokens l r lframes rframes hdialect hop hsign _ _ ihl ihr =>
    intro s rest hrest hcap
    subst hdialect
    rw [List.append_assoc, List.cons_append] at hrest
    refine resumes_productLeft hop hsign hrest (ihl hrest (room_of_le hcap (by omega))) ?_
    exact fun hdepth hbehind => ihr hbehind (room_of_le hcap (by omega))
  | @productRight sign op ltokens rtokens l r lframes rframes hdialect hop hsign hl _ ihl ihr =>
    intro s rest hrest hcap
    subst hdialect
    rw [List.append_assoc, List.cons_append] at hrest
    have hpos := hl.frames_pos
    refine resumes_productRight hop hsign hrest (room_of_pos hcap (by omega))
      (ihl hrest (room_of_le hcap (by omega))) ?_
    exact fun hdepth hbehind => ihr hbehind (room_of_le hcap (by omega))
  | @term tokens e frames _ ih =>
    intro s rest hrest hcap
    have hdepth : s.enter.depth = s.depth + 1 := rfl
    exact resumes_expression_of_term hrest (ih hrest (room_of_le hcap (by omega)))
  | @sum sign op ltokens rtokens l r lframes rframes hop hsign _ _ ihl ihr =>
    intro s rest hrest hcap
    rw [List.append_assoc, List.cons_append] at hrest
    refine resumes_sum hop hsign hrest (ihl hrest (room_of_le hcap (by omega))) ?_
    exact fun hdepth hbehind => ihr hbehind (room_of_le hcap (by omega))

/-- **A derived phrase is read.** -/
theorem run_of_derives {phrase : Phrase} (h : Derives dialect phrase tokens e frames)
    (hrest : s.cursor.rest = tokens ++ rest)
    (hcap : ∀ limit ∈ cap, s.depth + frames ≤ limit)
    (hends : phrase.Ends dialect rest.head?) :
    ∃ t, s.Past tokens (s.depth + frames) t ∧ (ofPhrase dialect cap phrase).run s = .ok e t := by
  have hresumes := resumes_of_derives h hrest hcap
  cases phrase with
  | factor => exact hresumes
  | term => exact hresumes.term hrest hends
  | expression => exact hresumes.expression hrest hcap hends

end Rule

end MiniC
