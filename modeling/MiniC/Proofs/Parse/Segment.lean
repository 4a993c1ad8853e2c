import MiniC.Proofs.Grammar.Regrouping
import MiniC.Proofs.Parse.Threshold

/-!
# Expressions on their own

A row of tokens is an expression by what the parser makes of it in a program: put between a header
and a semicolon, it is read to its end as one tree, under the caps from some threshold on. Nothing
of this depends on the program around it, and put into parentheses the same row is read as the same
tree again, inside of whatever stands around these.

## The crux

What a parser accepts under which caps is what the grammar derives with which frames: a row that is
an expression in one program is derived (`ExpressionIn.derives`), and a derived row is an expression
in every program (`Grammar.Derives.isExpression`). A derivation knows nothing of its surroundings,
so expressions compose as derivations do, and a threshold grows by the frames that the rules around
it add.

## The architecture

* **`Enclosure`** is the program around an expression, **`Parens`** a pair of parentheses.
* **`ReadAs`** is acceptance to the last token, **`ExpressionIn`** and **`IsExpression`** say so
  under all caps, in one program and in every program.
* **`parentheses_compose`** is the result.
-/

namespace MiniC

open Grammar (Derives DerivesProgram IsSumOp IsProductOp)

/-! ## What stands around an expression -/

/-- The tokens of a program in front of its expression and behind it. -/
structure Enclosure where
  header : List Token
  footer : List Token
  header_kinds : header.map Token.kind = Rule.header
  footer_kinds : footer.map Token.kind = [.semicolon, .closeBrace]

structure Parens where
  opening : Token
  closing : Token
  opening_kind : opening.kind = .openParen
  closing_kind : closing.kind = .closeParen

def Enclosure.around (enclosure : Enclosure) (segment : List Token) : List Token :=
  enclosure.header ++ segment ++ enclosure.footer

def Parens.around (parens : Parens) (segment : List Token) : List Token :=
  parens.opening :: segment ++ [parens.closing]

/-- The settings let the tokens be read to the last one, as a program that returns the
expression. -/
def ReadAs (settings : Settings) (tokens : List Token) (e : Expr) : Prop :=
  ∃ program, (Parser.ofTokens settings tokens).parseProgram.1 = .ok program ∧
    (Parser.ofTokens settings tokens).parseProgram.2.position = tokens.length ∧
    program.returned = e

/-- In this program the segment is read as the expression, without a cap and under the caps from the
threshold on. -/
def ExpressionIn (enclosure : Enclosure) (dialect : Dialect) (strict : Bool) (segment : List Token)
    (e : Expr) (threshold : Nat) : Prop :=
  ∀ cap, ReadAs { dialect, maxDepth := cap, strict } (enclosure.around segment) e ↔
    ∀ limit ∈ cap, threshold ≤ limit

/-- The segment is an expression with a tree and a threshold, whatever the program around it. -/
def IsExpression (dialect : Dialect) (segment : List Token) (e : Expr) (threshold : Nat) : Prop :=
  ∀ enclosure strict, ExpressionIn enclosure dialect strict segment e threshold

/-- The threshold of an operator between two expressions in parentheses. -/
def joinedThreshold (dialect : Dialect) (op : BinaryOp) (left right : Nat) : Nat :=
  match dialect, op with
  | .legacy, .multiply | .legacy, .divide => max (left + 2) (right + 3)
  | _, _ => 2 + max left right

variable {dialect : Dialect} {strict : Bool} {settings : Settings} {enclosure : Enclosure}
  {tokens segment : List Token} {program other : Program} {e : Expr} {threshold frames : Nat}

/-! ## Acceptance and derivations -/

/-- A program is derived with one number of frames. -/
theorem Grammar.DerivesProgram.frames_unique {frames' : Nat}
    (h : DerivesProgram dialect tokens program frames)
    (h' : DerivesProgram dialect tokens other frames') : frames = frames' := by
  obtain ⟨-, hframes⟩ := @Parser.nesting_of_derives { dialect } _ _ _ h
  obtain ⟨-, hframes'⟩ := @Parser.nesting_of_derives { dialect } _ _ _ h'
  rw [← hframes, hframes']

/-- Acceptance to the last token says that the tokens are a derived program and that the cap admits
its frames. Strict mode has no part in that. -/
theorem readAs_iff : ReadAs settings tokens e ↔
    ∃ program frames, DerivesProgram settings.dialect tokens program frames ∧
      program.returned = e ∧ ∀ limit ∈ settings.maxDepth, frames ≤ limit := by
  constructor
  · rintro ⟨program, hparse, hposition, hreturned⟩
    obtain ⟨-, -, frames, hderives, hcap⟩ := Parser.parseProgram_ok_iff.1 ⟨hparse, hposition⟩
    rw [List.take_length] at hderives
    exact ⟨program, frames, hderives, hreturned, hcap⟩
  · rintro ⟨program, frames, hderives, hreturned, hcap⟩
    rw [← tokens.take_length] at hderives
    obtain ⟨hparse, hposition⟩ := Parser.parseProgram_ok_iff.2
      ⟨Nat.le_refl _, fun _ => rfl, frames, hderives, hcap⟩
    exact ⟨program, hparse, hposition, hreturned⟩

namespace Enclosure

theorem length_header (enclosure : Enclosure) : enclosure.header.length = 6 := by
  rw [← List.length_map (f := Token.kind), enclosure.header_kinds]
  rfl

theorem length_footer (enclosure : Enclosure) : enclosure.footer.length = 2 := by
  rw [← List.length_map (f := Token.kind), enclosure.footer_kinds]
  rfl

/-- What a derived program has between its header and its footer is an expression. -/
theorem derives_inside (h : DerivesProgram dialect (enclosure.around segment) program frames) :
    Derives dialect .expression segment program.returned frames := by
  have hinside : ((enclosure.around segment).drop 6).take
      ((enclosure.around segment).length - 8) = segment := by
    rw [around, List.append_assoc, List.drop_left' enclosure.length_header]
    refine List.take_left' ?_
    rw [List.length_append, List.length_append, enclosure.length_header, enclosure.length_footer]
    omega
  obtain ⟨hreturned, -⟩ := h.expression
  rwa [hinside] at hreturned

/-- Around a derived expression there is a derived program. -/
theorem exists_derives (enclosure : Enclosure) (h : Derives dialect .expression segment e frames) :
    ∃ program, DerivesProgram dialect (enclosure.around segment) program frames ∧
      program.returned = e := by
  obtain ⟨header, footer, hheader, hfooter⟩ := enclosure
  -- eight tokens, each of the kind that its place in a program asks for
  simp only [Rule.header, List.map_eq_cons_iff, List.map_eq_nil_iff] at hheader hfooter
  obtain ⟨returnType, _, rfl, hreturnType, name, _, rfl, hname, openParen, _, rfl, hopenParen,
    closeParen, _, rfl, hcloseParen, openBrace, _, rfl, hopenBrace, keyword, _, rfl, hkeyword,
    rfl⟩ := hheader
  obtain ⟨semicolon, _, rfl, hsemicolon, closeBrace, _, rfl, hcloseBrace, rfl⟩ := hfooter
  exact ⟨_, .program hreturnType hname hopenParen hcloseParen hopenBrace hkeyword h hsemicolon
    hcloseBrace, rfl⟩

end Enclosure

/-- What a program accepts as an expression is one, with as many frames as the threshold says. -/
theorem ExpressionIn.derives (h : ExpressionIn enclosure dialect strict segment e threshold) :
    Derives dialect .expression segment e threshold := by
  obtain ⟨program, frames, hderives, hreturned, -⟩ := readAs_iff.1 ((h none).2 (by simp))
  obtain ⟨other, frames', hderives', -, hcap⟩ := readAs_iff.1 ((h (some threshold)).2 (by simp))
  have hle : frames ≤ threshold := by
    rw [hderives.frames_unique hderives']
    exact hcap threshold rfl
  have hge : threshold ≤ frames :=
    (h (some frames)).1 (readAs_iff.2 ⟨program, frames, hderives, hreturned, by simp⟩) frames rfl
  obtain rfl := Nat.le_antisymm hle hge
  rw [← hreturned]
  exact Enclosure.derives_inside hderives

/-- A derived expression is one in every program. -/
theorem Grammar.Derives.isExpression (h : Derives dialect .expression segment e threshold) :
    IsExpression dialect segment e threshold := by
  intro enclosure strict cap
  obtain ⟨program, hderives, hreturned⟩ := enclosure.exists_derives h
  rw [readAs_iff]
  constructor
  · rintro ⟨other, frames, hother, -, hcap⟩
    rwa [hother.frames_unique hderives] at hcap
  · exact fun hcap => ⟨program, threshold, hderives, hreturned, hcap⟩

/-! ## Operators and their thresholds -/

variable {op : BinaryOp} {left right : Nat}

/-- An operator of the dialect is one of a sum or of a product. -/
theorem Grammar.isSumOp_or_isProductOp (h : dialect = .legacy → op ≠ .subtract) :
    IsSumOp dialect op ∨ IsProductOp op := by
  cases op with
  | add => cases dialect with
    | standard => exact .inl (.inl rfl)
    | legacy => exact .inl rfl
  | subtract => cases dialect with
    | standard => exact .inl (.inr rfl)
    | legacy => exact absurd rfl (h rfl)
  | multiply => exact .inr (.inl rfl)
  | divide => exact .inr (.inr rfl)

theorem joinedThreshold_standard :
    joinedThreshold .standard op left right = 2 + max left right := by
  cases op <;> rfl

/-- A sum takes two levels above the deeper of its operands, in both dialects. -/
theorem joinedThreshold_of_isSumOp (h : IsSumOp dialect op) :
    joinedThreshold dialect op left right = 2 + max left right := by
  cases dialect with
  | standard => exact joinedThreshold_standard
  | legacy =>
    obtain rfl := h
    rfl

/-- A legacy product takes a third level on its right side. -/
theorem joinedThreshold_of_isProductOp (h : IsProductOp op) :
    joinedThreshold .legacy op left right = max (left + 2) (right + 3) := by
  obtain rfl | rfl := h <;> rfl

/-! ## Around a derivation -/

namespace Grammar.Derives

/-- In parentheses, a derived expression is a factor of the same tree. -/
theorem around (parens : Parens) (h : Derives dialect .expression segment e frames) :
    Derives dialect .factor (parens.around segment) e (1 + frames) :=
  .parens parens.opening_kind parens.closing_kind h

/-- Two factors and an operator of the dialect between them are an expression. -/
theorem joined {ltokens rtokens : List Token} {l r : Expr} {lframes rframes : Nat} {sign : Token}
    (hsign : sign.kind = op.kind) (hop : dialect = .legacy → op ≠ .subtract)
    (hleft : Derives dialect .factor ltokens l (1 + lframes))
    (hright : Derives dialect .factor rtokens r (1 + rframes)) :
    Derives dialect .expression (ltokens ++ sign :: rtokens) (.binary op l r sign.location)
      (joinedThreshold dialect op lframes rframes) := by
  obtain hsum | hproduct := isSumOp_or_isProductOp hop
  · -- a sum is joined above its terms, where the left one has become an expression
    have hjoined := Derives.sum hsum hsign (.term (.factor hleft)) (.factor hright)
    rw [Nat.add_max_add_left, Nat.add_max_add_left, ← Nat.add_assoc] at hjoined
    rwa [joinedThreshold_of_isSumOp hsum]
  -- a product is joined below them, inside of the expression that it is
  cases dialect with
  | standard =>
    have hjoined := Derives.term (.productLeft rfl hproduct hsign (.factor hleft) hright)
    rw [Nat.add_max_add_left, ← Nat.add_assoc] at hjoined
    rwa [joinedThreshold_standard]
  | legacy =>
    -- and its right side is a term there, one frame further in
    have hjoined := Derives.term (.productRight rfl hproduct hsign hleft (.factor hright))
    rw [joinedThreshold_of_isProductOp hproduct]
    rwa [show max (lframes + 2) (rframes + 3) =
      1 + max (1 + lframes) (1 + (1 + rframes)) by omega]

end Grammar.Derives

/-! ## The main theorem -/

/-- **Expressions compose through parentheses.** A row of tokens that one program accepts as an
expression is one in every program, with the same tree and the same threshold. In parentheses it
has the tree again, and the threshold two above; behind a unary operator it is that operator's
operand, and the threshold is three above. Between two of them in parentheses, a binary operator
of the dialect has their trees as operands. -/
theorem parentheses_compose {enclosure' : Enclosure} {strict' : Bool} {left right : List Token}
    {l r : Expr} {lthreshold rthreshold : Nat}
    (hleft : ExpressionIn enclosure dialect strict left l lthreshold)
    (hright : ExpressionIn enclosure' dialect strict' right r rthreshold) :
    IsExpression dialect left l lthreshold ∧
    (∀ parens : Parens, IsExpression dialect (parens.around left) l (lthreshold + 2)) ∧
    (∀ (parens : Parens) (sign : Token) (op : UnaryOp), sign.kind = op.kind →
      IsExpression dialect (sign :: parens.around left) (.unary op l sign.location)
        (lthreshold + 3)) ∧
    ∀ (parens parens' : Parens) (sign : Token) (op : BinaryOp), sign.kind = op.kind →
      (dialect = .legacy → op ≠ .subtract) →
      IsExpression dialect (parens.around left ++ sign :: parens'.around right)
        (.binary op l r sign.location) (joinedThreshold dialect op lthreshold rthreshold) := by
  have hl := hleft.derives
  have hr := hright.derives
  refine ⟨hl.isExpression, fun parens => ?_, fun parens sign op hsign => ?_,
    fun parens parens' sign op hsign hop => ?_⟩
  · have hparens := Derives.term (.factor (hl.around parens))
    rw [show 1 + (1 + lthreshold) = lthreshold + 2 by omega] at hparens
    exact hparens.isExpression
  · have hunary := Derives.term (.factor (.unary hsign (hl.around parens)))
    rw [show 1 + (1 + (1 + lthreshold)) = lthreshold + 3 by omega] at hunary
    exact hunary.isExpression
  · exact (Derives.joined hsign hop (hl.around parens) (hr.around parens')).isExpression

/-- The legacy product `(1) * (2 + 3)`: either side alone has the threshold two, and the right
factor inside of the product takes it to five. -/
theorem parentheses_compose_legacy_product :
    let enclosure : Enclosure := ⟨[⟨.intKeyword, "int", ⟨1, 1⟩⟩, ⟨.identifier, "f", ⟨1, 5⟩⟩,
      ⟨.openParen, "(", ⟨1, 6⟩⟩, ⟨.closeParen, ")", ⟨1, 7⟩⟩, ⟨.openBrace, "\x7b", ⟨1, 9⟩⟩,
      ⟨.returnKeyword, "return", ⟨1, 11⟩⟩],
      [⟨.semicolon, ";", ⟨2, 1⟩⟩, ⟨.closeBrace, "\x7d", ⟨2, 2⟩⟩], rfl, rfl⟩
    let parens : Parens := ⟨⟨.openParen, "(", ⟨1, 18⟩⟩, ⟨.closeParen, ")", ⟨1, 20⟩⟩, rfl, rfl⟩
    let parens' : Parens := ⟨⟨.openParen, "(", ⟨1, 22⟩⟩, ⟨.closeParen, ")", ⟨1, 26⟩⟩, rfl, rfl⟩
    let one : Expr := .literal "1" ⟨1, 19⟩
    let sum : Expr := .binary .add (.literal "2" ⟨1, 23⟩) (.literal "3" ⟨1, 25⟩) ⟨1, 24⟩
    let left : List Token := [⟨.intLiteral, "1", ⟨1, 19⟩⟩]
    let right : List Token :=
      [⟨.intLiteral, "2", ⟨1, 23⟩⟩, ⟨.plus, "+", ⟨1, 24⟩⟩, ⟨.intLiteral, "3", ⟨1, 25⟩⟩]
    ExpressionIn enclosure .legacy true left one 2 ∧
      ExpressionIn enclosure .legacy false right sum 2 ∧
      IsExpression .legacy (parens.around left ++ ⟨.star, "*", ⟨1, 21⟩⟩ :: parens'.around right)
        (.binary .multiply one sum ⟨1, 21⟩) 5 := by
  intro enclosure parens parens' one sum left right
  have hone : Derives .legacy .expression left one 2 := .term (.factor (.literal rfl))
  have hsum : Derives .legacy .expression right sum 2 :=
    @Derives.sum .legacy _ .add [_] [_] _ _ 2 1 rfl rfl (.term (.factor (.literal rfl)))
      (.factor (.literal rfl))
  have hleft := hone.isExpression enclosure true
  have hright := hsum.isExpression enclosure false
  obtain ⟨-, -, -, hjoined⟩ := parentheses_compose hleft hright
  exact ⟨hleft, hright, hjoined parens parens' ⟨.star, "*", ⟨1, 21⟩⟩ .multiply rfl (by decide)⟩

end MiniC
