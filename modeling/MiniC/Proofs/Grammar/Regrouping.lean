import MiniC.Grammar.Written

/-!
# Written phrases and derivations

A derivation is a written phrase together with the grouping of its dialect. The standard dialect
derives every written phrase, folded to the left; the legacy dialect derives those without a
subtraction, folded to the right. So a token list that both dialects derive is written in one way,
and its two trees differ by the folding of its chains and by nothing else.

## The crux

A written term begins with its first factor, and the standard grammar splits off the last one. The
induction therefore goes over what a chain may be begun with (`Continues`), and the other way around
a chain is rebuilt with one more factor at its end (`exists_snoc`).

## The architecture

* **`Written.inorder_tree`**, **`Written.tree_left_eq_right`** say what the two foldings have in
  common: always the nodes in order, and the whole tree where no chain has two operators.
* **`Written.derives_standard`**, **`Written.derives_legacy`** derive a written phrase;
  **`Derives.exists_written`** writes down a derivation.
* **`DerivesProgram.expression`** takes the expression out of a program and puts another one in.
-/

namespace MiniC.Grammar

variable {dialect : Dialect} {phrase : Phrase} {grouping : Grouping} {tokens : List Token}
  {e : Expr} {frames : Nat}

/-! ## The two foldings of a chain -/

namespace Chain

def inorder (chain : Chain) : List (Expr.Mark × Location) :=
  chain.first.inorder ++
    chain.more.flatMap fun (op, location, right) => (.binary op, location) :: right.inorder

theorem inorder_foldLeft (chain : Chain) : chain.foldLeft.inorder = chain.inorder := by
  obtain ⟨first, more⟩ := chain
  induction more generalizing first with
  | nil => simp [foldLeft, inorder]
  | cons step more ih =>
    obtain ⟨op, location, right⟩ := step
    -- the first operator has made one left operand of the first two
    have hrest := ih (.binary op first right location)
    simp only [inorder, Expr.inorder] at hrest
    simp only [foldLeft, List.foldl_cons, inorder, List.flatMap_cons] at hrest ⊢
    rw [hrest]
    simp

theorem inorder_foldRight (first : Expr) (more : List (BinaryOp × Location × Expr)) :
    (foldRight first more).inorder = inorder ⟨first, more⟩ := by
  induction more generalizing first with
  | nil => simp [foldRight, inorder]
  | cons step more ih =>
    obtain ⟨op, location, right⟩ := step
    rw [foldRight, Expr.inorder, ih]
    simp [inorder]

/-- The nodes of a chain stand in the same order whichever way it folds. -/
theorem inorder_fold (grouping : Grouping) (chain : Chain) :
    (chain.fold grouping).inorder = chain.inorder := by
  cases grouping with
  | left => exact inorder_foldLeft chain
  | right => exact inorder_foldRight chain.first chain.more

/-- With one operator there is nothing to choose. -/
theorem fold_left_eq_right {chain : Chain} (h : chain.more.length ≤ 1) :
    chain.fold .left = chain.fold .right := by
  obtain ⟨first, more⟩ := chain
  match more with
  | [] => rfl
  | [(op, location, right)] => rfl
  | _ :: _ :: _ =>
    simp only [List.length_cons] at h
    omega

/-- One more operator at the end of a chain becomes the root of its tree. -/
theorem foldLeft_append (first right : Expr) (more : List (BinaryOp × Location × Expr))
    (op : BinaryOp) (location : Location) :
    foldLeft ⟨first, more ++ [(op, location, right)]⟩ =
      .binary op (foldLeft ⟨first, more⟩) right location := by
  simp [foldLeft]

end Chain

namespace Written

/-! ## The two trees of a phrase -/

/-- The operands of a chain are folded already, and their nodes stand as they were written. -/
theorem inorder_chain (w : Written phrase) : (w.chain grouping).inorder = w.inorder := by
  induction w with
  | literal => simp [chain, Chain.inorder, inorder, Expr.inorder]
  | unary _ _ _ operand ih =>
    rw [inorder, ← ih, ← Chain.inorder_fold grouping (operand.chain grouping)]
    simp [chain, Chain.inorder, Expr.inorder]
  | parens _ _ _ _ inner ih | factor inner ih | term inner ih =>
    rw [inorder, ← ih, ← Chain.inorder_fold grouping (inner.chain grouping)]
    simp [chain, Chain.inorder]
  | product left _ _ _ _ _ ihl ihr =>
    rw [inorder, ← ihl, ← ihr, ← Chain.inorder_fold grouping (left.chain grouping)]
    simp [chain, Chain.inorder]
  | sum left _ _ _ _ right ihl ihr =>
    rw [inorder, ← ihl, ← ihr, ← Chain.inorder_fold grouping (left.chain grouping),
      ← Chain.inorder_fold grouping (right.chain grouping)]
    simp [chain, Chain.inorder, Expr.inorder]

/-- Folding a chain one way or the other keeps the nodes in order. -/
theorem inorder_tree (w : Written phrase) : (w.tree grouping).inorder = w.inorder := by
  rw [tree, Chain.inorder_fold, inorder_chain]

/-- Whether there is a subtraction does not depend on the folding either. -/
theorem subtracts_tree (w : Written phrase) :
    (w.tree .left).Subtracts ↔ (w.tree .right).Subtracts := by
  rw [Expr.Subtracts, Expr.Subtracts, Expr.marks, Expr.marks, inorder_tree, inorder_tree]

/-- A term has an operator in its chain for every factor but the first. No other phrase has any. -/
theorem length_more (w : Written phrase) : (w.chain grouping).more.length = w.operators := by
  induction w with
  | product _ _ _ _ _ _ _ ihr => rw [operators, ← ihr, chain, List.length_cons]
  | literal | unary | parens | factor | term | sum => rfl

theorem operators_le_longestChain (w : Written phrase) : w.operators ≤ w.longestChain := by
  cases w with
  | product =>
    rw [longestChain, operators]
    omega
  | literal | unary | parens | factor | term | sum => exact Nat.zero_le _

/-- A phrase has one tree if its own chain is the same in both cases. What is left to choose is how
that chain folds. -/
theorem tree_left_eq_right_of_chain {w : Written phrase} (h : w.longestChain ≤ 1)
    (hchain : w.chain .left = w.chain .right) : w.tree .left = w.tree .right := by
  have hlength : (w.chain .right).more.length ≤ 1 := by
    rw [length_more]
    exact Nat.le_trans w.operators_le_longestChain h
  rw [tree, tree, hchain, Chain.fold_left_eq_right hlength]

/-- Where no chain has two operators, a phrase is the same chain in both cases, by induction on what
is written. -/
theorem chain_left_eq_right {w : Written phrase} (h : w.longestChain ≤ 1) :
    w.chain .left = w.chain .right := by
  induction w with
  | literal => rfl
  | unary sign op _ operand ih =>
    have hoperand : operand.tree .left = operand.tree .right :=
      tree_left_eq_right_of_chain h (ih h)
    exact congrArg (fun e => Chain.mk (.unary op e sign.location) []) hoperand
  | parens _ _ _ _ inner ih | factor inner ih | term inner ih =>
    have hinner : inner.tree .left = inner.tree .right :=
      tree_left_eq_right_of_chain h (ih h)
    exact congrArg (fun e => Chain.mk e []) hinner
  | product left sign op _ _ right ihl ihr =>
    rw [longestChain] at h
    have hleft : left.tree .left = left.tree .right :=
      tree_left_eq_right_of_chain (by omega) (ihl (by omega))
    have hright := ihr (by omega)
    show Chain.mk (left.tree .left) ((op, sign.location, (right.chain .left).first) :: _) =
      Chain.mk (left.tree .right) ((op, sign.location, (right.chain .right).first) :: _)
    rw [hleft, hright]
  | sum left sign op _ _ right ihl ihr =>
    rw [longestChain] at h
    have hleft : left.tree .left = left.tree .right :=
      tree_left_eq_right_of_chain (by omega) (ihl (by omega))
    have hright : right.tree .left = right.tree .right :=
      tree_left_eq_right_of_chain (by omega) (ihr (by omega))
    show Chain.mk (.binary op (left.tree .left) (right.tree .left) sign.location) [] =
      Chain.mk (.binary op (left.tree .right) (right.tree .right) sign.location) []
    rw [hleft, hright]

/-- A chain with one operator at most folds the same way to either side. -/
theorem tree_left_eq_right {w : Written phrase} (h : w.longestChain ≤ 1) :
    w.tree .left = w.tree .right :=
  tree_left_eq_right_of_chain h (chain_left_eq_right h)

/-- The legacy dialect spends frames on right operands, so it never needs fewer. -/
theorem frames_standard_le (w : Written phrase) : w.frames .standard ≤ w.frames .legacy := by
  induction w with
  | literal => exact Nat.le_refl 1
  | unary _ _ _ _ ih | parens _ _ _ _ _ ih | term _ ih => exact Nat.add_le_add_left ih 1
  | factor _ ih => exact ih
  | product _ _ _ _ _ _ ihl ihr | sum _ _ _ _ _ _ ihl ihr =>
    simp only [frames]
    omega

/-! ## Deriving a written phrase -/

/-- Behind a term and an operator the chain of `w` goes on, and all of it is one standard term. -/
def Continues (w : Written phrase) : Prop :=
  ∀ {ltokens : List Token} {l : Expr} {lframes : Nat} {sign : Token} {op : BinaryOp},
    Derives .standard .term ltokens l lframes → IsProductOp op → sign.kind = op.kind →
    Derives .standard .term (ltokens ++ sign :: w.tokens)
      (Chain.foldLeft ⟨l, (op, sign.location, (w.chain .left).first) :: (w.chain .left).more⟩)
      (max lframes (w.frames .standard))

/-- The induction behind `derives_standard`. A term says in addition how it goes on behind another
one, for the grammar takes factors off its end and the phrase has them at its front. -/
theorem derives_standard_and (w : Written phrase) :
    Derives .standard phrase w.tokens (w.tree .left) (w.frames .standard) ∧
      (phrase = .term → w.Continues) := by
  induction w with
  | literal token hkind => exact ⟨.literal hkind, nofun⟩
  | unary sign op hsign operand ih => exact ⟨.unary hsign ih.1, nofun⟩
  | parens opening closing hopen hclose inner ih => exact ⟨.parens hopen hclose ih.1, nofun⟩
  | factor f ih => exact ⟨.factor ih.1, fun _ _ _ _ _ _ hleft hop hsign =>
      .productLeft rfl hop hsign hleft ih.1⟩
  | product left sign op hop hsign right ihl ihr =>
    have hright : right.Continues := ihr.2 rfl
    refine ⟨hright (.factor ihl.1) hop hsign, ?_⟩
    intro _ ltokens l lframes sign' op' hleft hop' hsign'
    -- the first factor here joins the term before it, and the rest goes on from there
    have hall := hright (.productLeft rfl hop' hsign' hleft ihl.1) hop hsign
    rw [List.append_assoc, List.cons_append, Nat.max_assoc] at hall
    exact hall
  | term t ih => exact ⟨.term ih.1, nofun⟩
  | sum left sign op hop hsign right ihl ihr => exact ⟨.sum hop hsign ihl.1 ihr.1, nofun⟩

/-- **The standard dialect derives every written phrase**, folded to the left. -/
theorem derives_standard (w : Written phrase) :
    Derives .standard phrase w.tokens (w.tree .left) (w.frames .standard) :=
  w.derives_standard_and.1

/-- **The legacy dialect derives a written phrase without a subtraction**, folded to the right. -/
theorem derives_legacy {w : Written phrase} (h : ¬ (w.tree .right).Subtracts) :
    Derives .legacy phrase w.tokens (w.tree .right) (w.frames .legacy) := by
  induction w with
  | literal token hkind => exact .literal hkind
  | unary sign op hsign operand ih =>
    exact .unary hsign (ih fun hsub => h (List.mem_cons_of_mem _ hsub))
  | parens opening closing hopen hclose inner ih => exact .parens hopen hclose (ih h)
  | factor f ih => exact .factor (ih h)
  | product left sign op hop hsign right ihl ihr =>
    rw [Expr.Subtracts, tree_product_right, Expr.marks_binary, List.mem_append, List.mem_cons,
      not_or, not_or] at h
    exact .productRight rfl hop hsign (ihl h.1) (ihr h.2.2)
  | term t ih => exact .term (ih h)
  | sum left sign op hop hsign right ihl ihr =>
    rw [Expr.Subtracts, tree_sum, Expr.marks_binary, List.mem_append, List.mem_cons, not_or,
      not_or] at h
    have hadd : op = .add := hop.resolve_right fun hsub => h.2.1 (by rw [hsub])
    exact .sum hadd hsign (ihl h.1) (ihr h.2.2)

/-! ## Writing down a derivation -/

/-- A term goes on with one more factor. -/
theorem exists_snoc (w : Written phrase) (hphrase : phrase = .term) {sign : Token} {op : BinaryOp}
    (hop : IsProductOp op) (hsign : sign.kind = op.kind) (last : Written .factor) :
    ∃ longer : Written .term, longer.tokens = w.tokens ++ sign :: last.tokens ∧
      longer.chain .left = ⟨(w.chain .left).first,
        (w.chain .left).more ++ [(op, sign.location, last.tree .left)]⟩ ∧
      longer.frames .standard = max (w.frames .standard) (last.frames .standard) := by
  induction w with
  | literal | unary | parens | term | sum => cases hphrase
  | factor f => exact ⟨.product f sign op hop hsign (.factor last), rfl, rfl, rfl⟩
  | product left sign' op' hop' hsign' right _ ih =>
    obtain ⟨longer, htokens, hchain, hframes⟩ := ih rfl
    refine ⟨.product left sign' op' hop' hsign' longer, ?_, ?_, ?_⟩
    · simp [tokens, htokens]
    · simp [chain, hchain]
    · simp only [frames, hframes, Nat.max_assoc]

end Written

/-- Every derivation is that of a written phrase, folded the way of the dialect. -/
theorem Derives.exists_written (h : Derives dialect phrase tokens e frames) :
    ∃ w : Written phrase, w.tokens = tokens ∧ w.tree dialect.grouping = e ∧
      w.frames dialect = frames := by
  induction h with
  | literal hkind => exact ⟨.literal _ hkind, rfl, Written.tree_literal .., rfl⟩
  | unary hsign _ ih =>
    obtain ⟨w, rfl, rfl, rfl⟩ := ih
    exact ⟨.unary _ _ hsign w, rfl, Written.tree_unary .., rfl⟩
  | parens hopen hclose _ ih =>
    obtain ⟨w, rfl, rfl, rfl⟩ := ih
    exact ⟨.parens _ _ hopen hclose w, rfl, Written.tree_parens .., rfl⟩
  | factor _ ih =>
    obtain ⟨w, rfl, rfl, rfl⟩ := ih
    exact ⟨.factor w, rfl, Written.tree_factor .., rfl⟩
  | productLeft hdialect hop hsign _ _ ihl ihr =>
    subst hdialect
    obtain ⟨left, rfl, rfl, rfl⟩ := ihl
    obtain ⟨last, rfl, rfl, rfl⟩ := ihr
    -- a derivation takes factors off the end of a term, a phrase has them at its front
    obtain ⟨longer, htokens, hchain, hframes⟩ := left.exists_snoc rfl hop hsign last
    refine ⟨longer, htokens, ?_, hframes⟩
    show (longer.chain .left).foldLeft = _
    rw [hchain]
    exact Chain.foldLeft_append ..
  | productRight hdialect hop hsign _ _ ihl ihr =>
    subst hdialect
    obtain ⟨left, rfl, rfl, rfl⟩ := ihl
    obtain ⟨right, rfl, rfl, rfl⟩ := ihr
    exact ⟨.product left _ _ hop hsign right, rfl, Written.tree_product_right .., rfl⟩
  | term _ ih =>
    obtain ⟨w, rfl, rfl, rfl⟩ := ih
    exact ⟨.term w, rfl, Written.tree_term .., rfl⟩
  | @sum sign op _ _ _ _ _ _ hop hsign _ _ ihl ihr =>
    obtain ⟨left, rfl, rfl, rfl⟩ := ihl
    obtain ⟨right, rfl, rfl, rfl⟩ := ihr
    -- what is written may use the operators of either dialect
    have hstandard : IsSumOp .standard op := by
      cases dialect with
      | standard => exact hop
      | legacy => exact .inl hop
    exact ⟨.sum left _ _ hstandard hsign right, rfl, Written.tree_sum .., rfl⟩

/-- The legacy dialect has no way to subtract. -/
theorem Derives.not_subtracts (h : Derives .legacy phrase tokens e frames) : ¬ e.Subtracts := by
  induction h with
  | literal => simp [Expr.Subtracts]
  | unary _ _ ih => simpa [Expr.Subtracts] using ih
  | parens _ _ _ ih | factor _ ih | term _ ih => exact ih
  | productLeft hdialect => cases hdialect
  | productRight _ hop _ _ _ ihl ihr =>
    rcases hop with rfl | rfl <;> simpa [Expr.Subtracts] using And.intro ihl ihr
  | sum hop _ _ _ ihl ihr =>
    obtain rfl := hop
    simpa [Expr.Subtracts] using And.intro ihl ihr

/-! ## Programs -/

/-- The expression of a program lies between its six first and its two last tokens, and whatever
else these tokens derive can take its place. -/
theorem DerivesProgram.expression {program : Program}
    (h : DerivesProgram dialect tokens program frames) :
    Derives dialect .expression ((tokens.drop 6).take (tokens.length - 8)) program.returned
        frames ∧
      ∀ {dialect' : Dialect} {e' : Expr} {frames' : Nat},
        Derives dialect' .expression ((tokens.drop 6).take (tokens.length - 8)) e' frames' →
        DerivesProgram dialect' tokens (program.withReturned e') frames' := by
  obtain @⟨_, _, _, _, _, _, _, _, body, _, _, hreturnType, hname, hopenParen, hcloseParen,
    hopenBrace, hkeyword, hreturned, hsemicolon, hcloseBrace⟩ := h
  -- whatever the eight tokens around it are, the expression lies between them
  have hbody : ∀ header tail : List Token, header.length = 6 → tail.length = 2 →
      ((header ++ body ++ tail).drop 6).take ((header ++ body ++ tail).length - 8) = body := by
    intro header tail hheader htail
    rw [List.append_assoc, List.drop_left' hheader]
    refine List.take_left' ?_
    simp only [List.length_append, hheader, htail]
    omega
  rw [hbody _ _ rfl rfl]
  exact ⟨hreturned, fun hderives => .program hreturnType hname hopenParen hcloseParen hopenBrace
    hkeyword hderives hsemicolon hcloseBrace⟩

end MiniC.Grammar
