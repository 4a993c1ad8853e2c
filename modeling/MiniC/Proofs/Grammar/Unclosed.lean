import Mathlib.Data.Finset.Card
import MiniC.Proofs.Grammar.Completion
import MiniC.Proofs.Parse.Program

/-!
# Missing closing parentheses

Some closing parentheses of a program are left out. What stands behind them is then grouped in
another way: the operands that followed the closed parenthesis now belong inside of it. Still every
token fits, for behind an operand the same operators may come whether a parenthesis is open or not.
Only the semicolon needs all of them closed, so it is there that the first one is missed.

## The crux

The automaton keeps no more of an expression than the number of open parentheses. Over a phrase from
which `k` closing parentheses are missing it walks as over the phrase itself, and ends up with `k`
more that are open. A derivation says where they can be missing: at the end of a factor in
parentheses and nowhere else.

## The architecture

* **`without`** takes the tokens at some indices out of a list; **`Drops`** is what this does to the
  tokens of an expression (`drops_without`).
* **`Derives.staysOpen`** is the walk of the automaton over a phrase with missing parentheses.
* **`missing_parens_stop_at_semicolon`** is the result.
-/

namespace MiniC

variable {dialect : Dialect} {tokens fewer front back : List Token} {removed : Finset Nat}
  {start k : Nat}

/-! ## Leaving tokens out -/

/-- The tokens that are not at the indices to remove, where the first one has the index `start`. -/
def without (removed : Finset Nat) (start : Nat) (tokens : List Token) : List Token :=
  ((tokens.zipIdx start).filter fun (_, i) => i ∉ removed).map Prod.fst

theorem without_cons_of_mem (token : Token) (h : start ∈ removed) :
    without removed start (token :: tokens) = without removed (start + 1) tokens := by
  rw [without, List.zipIdx_cons, List.filter_cons_of_neg (by simpa using h)]
  rfl

theorem without_cons_of_not_mem (token : Token) (h : start ∉ removed) :
    without removed start (token :: tokens) = token :: without removed (start + 1) tokens := by
  rw [without, List.zipIdx_cons, List.filter_cons_of_pos (by simpa using h)]
  rfl

/-- What is removed from a list is removed from its two parts, where the second one is counted
on. -/
theorem without_append :
    without removed start (front ++ back) =
      without removed start front ++ without removed (start + front.length) back := by
  rw [without, List.zipIdx_append, List.filter_append, List.map_append]
  rfl

/-- Where no index is to be removed, all tokens stay. -/
theorem without_eq_self (h : ∀ i ∈ removed, start ≤ i → start + tokens.length ≤ i) :
    without removed start tokens = tokens := by
  induction tokens generalizing start with
  | nil => rfl
  | cons token tokens ih =>
    have hstart : start ∉ removed := by
      intro hmem
      have hle := h start hmem (Nat.le_refl start)
      rw [List.length_cons] at hle
      omega
    rw [without_cons_of_not_mem token hstart, ih]
    intro i hi hle
    have hlength := h i hi (Nat.le_of_succ_le hle)
    rw [List.length_cons] at hlength
    omega

/-- What is removed from the middle of a list leaves its ends alone. -/
theorem without_middle {header inner rest : List Token}
    (h : ∀ i ∈ removed, header.length ≤ i ∧ i < header.length + inner.length) :
    without removed 0 (header ++ (inner ++ rest)) =
      header ++ (without removed header.length inner ++ rest) := by
  rw [without_append, without_append, Nat.zero_add]
  congr 1
  · refine without_eq_self fun i hi _ => ?_
    rw [Nat.zero_add]
    exact (h i hi).1
  · congr 1
    exact without_eq_self fun i hi hle => absurd (h i hi).2 (Nat.not_lt.2 hle)

/-! ## Leaving closing parentheses out -/

/-- `Drops k tokens fewer`: without `k` of their closing parentheses, the tokens are the fewer
ones. -/
inductive Drops : Nat → List Token → List Token → Prop where
  | nil : Drops 0 [] []
  | keep {k : Nat} {tokens fewer : List Token} (token : Token) (hrest : Drops k tokens fewer) :
      Drops k (token :: tokens) (token :: fewer)
  | drop {k : Nat} {tokens fewer : List Token} {closing : Token}
      (hclose : closing.kind = .closeParen) (hrest : Drops k tokens fewer) :
      Drops (k + 1) (closing :: tokens) fewer

namespace Drops

theorem length_eq (h : Drops k tokens fewer) : fewer.length + k = tokens.length := by
  induction h with
  | nil => rfl
  | keep _ _ ih =>
    rw [List.length_cons, List.length_cons, ← ih]
    omega
  | drop _ _ ih => rw [List.length_cons, ← ih, Nat.add_assoc]

/-- A token that closes no parenthesis is kept. -/
theorem of_cons {token : Token} (h : Drops k (token :: tokens) fewer)
    (hkind : token.kind ≠ .closeParen) : ∃ rest, fewer = token :: rest ∧ Drops k tokens rest := by
  cases h with
  | keep _ hrest => exact ⟨_, rfl, hrest⟩
  | drop hclose => exact absurd hclose hkind

theorem of_append (h : Drops k (front ++ back) fewer) :
    ∃ m n front' back', k = m + n ∧ fewer = front' ++ back' ∧ Drops m front front' ∧
      Drops n back back' := by
  induction front generalizing k fewer with
  | nil => exact ⟨0, k, [], fewer, (Nat.zero_add k).symm, rfl, .nil, h⟩
  | cons token front ih =>
    cases h with
    | keep _ hrest =>
      obtain ⟨m, n, front', back', rfl, rfl, hfront, hback⟩ := ih hrest
      exact ⟨m, n, token :: front', back', rfl, rfl, .keep token hfront, hback⟩
    | drop hclose hrest =>
      obtain ⟨m, n, front', back', rfl, rfl, hfront, hback⟩ := ih hrest
      exact ⟨m + 1, n, front', back', Nat.add_right_comm m n 1, rfl, .drop hclose hfront, hback⟩

end Drops

/-- Without some of its closing parentheses, a list has lost as many tokens as it has indices that
were to be removed. -/
theorem drops_without
    (h : ∀ i token, tokens[i]? = some token → start + i ∈ removed → token.kind = .closeParen) :
    Drops ((List.range' start tokens.length).countP (· ∈ removed)) tokens
      (without removed start tokens) := by
  induction tokens generalizing start with
  | nil => exact .nil
  | cons token tokens ih =>
    have hrest := @ih (start + 1) fun i other hother hmem =>
      h (i + 1) other hother (by rwa [Nat.add_right_comm] at hmem)
    rw [List.length_cons, List.range'_succ]
    by_cases hstart : start ∈ removed
    · rw [without_cons_of_mem token hstart, List.countP_cons_of_pos (by simpa using hstart)]
      exact .drop (h 0 token rfl hstart) hrest
    · rw [without_cons_of_not_mem token hstart, List.countP_cons_of_neg (by simpa using hstart)]
      exact .keep token hrest

/-- Each index to remove is counted once. -/
theorem countP_range'_mem {length : Nat} (h : ∀ i ∈ removed, start ≤ i ∧ i < start + length) :
    (List.range' start length).countP (· ∈ removed) = removed.card := by
  rw [List.countP_eq_length_filter, ← List.toFinset_card_of_nodup ((List.nodup_range').filter _)]
  congr 1
  ext i
  simp only [List.mem_toFinset, List.mem_filter, List.mem_range'_1, decide_eq_true_eq]
  exact ⟨fun hi => hi.2, fun hi => ⟨h i hi, hi⟩⟩

/-! ## The walk over a phrase -/

namespace Grammar

open Automaton (walk step? walk_append walk_cons_of_some)

variable {phrase : Phrase} {e : Expr} {frames : Nat}

/-- Without any of its closing parentheses, a row of tokens still leads behind an operand, and those
that are missing stay open. -/
def StaysOpen (dialect : Dialect) (tokens : List Token) : Prop :=
  ∀ {k : Nat} {fewer : List Token}, Drops k tokens fewer → ∀ parens,
    walk dialect (.operand parens) fewer = some (.after (parens + k))

/-- An operator between two operands opens and closes nothing. -/
theorem StaysOpen.binary {ltokens rtokens : List Token} {sign : Token}
    (hleft : StaysOpen dialect ltokens) (hright : StaysOpen dialect rtokens)
    (hsign : ∀ parens, step? dialect (.after parens) sign.kind = some (.operand parens)) :
    StaysOpen dialect (ltokens ++ sign :: rtokens) := by
  intro k fewer hdrops parens
  have hne : sign.kind ≠ .closeParen := by
    intro hkind
    have hstep := hsign 0
    rw [hkind] at hstep
    cases hstep
  obtain ⟨m, n, front, _, rfl, rfl, hfront, hback⟩ := hdrops.of_append
  obtain ⟨back, rfl, hback'⟩ := hback.of_cons hne
  rw [walk_append (hleft hfront parens), walk_cons_of_some (hsign _), hright hback', Nat.add_assoc]

/-- **The automaton walks over a phrase with missing parentheses** as over the whole phrase. -/
theorem Derives.staysOpen (h : Derives dialect phrase tokens e frames) :
    StaysOpen dialect tokens := by
  induction h with
  | literal hkind =>
    intro k fewer hdrops parens
    obtain ⟨rest, rfl, hrest⟩ := hdrops.of_cons (by rw [hkind]; exact nofun)
    cases hrest
    rw [walk_cons_of_some (by rw [hkind]; rfl)]
    rfl
  | @unary sign op tokens e frames hsign _ ih =>
    intro k fewer hdrops parens
    obtain ⟨rest, rfl, hrest⟩ := hdrops.of_cons (by rw [hsign]; cases op <;> exact nofun)
    rw [walk_cons_of_some (Rule.step?_of_unaryOp? (Token.Kind.unaryOp?_eq_some.2 hsign))]
    exact ih hrest parens
  | parens hopen hclose _ ih =>
    intro k fewer hdrops parens
    obtain ⟨inner, rfl, hinner⟩ := hdrops.of_cons (by rw [hopen]; exact nofun)
    obtain ⟨m, n, front, back, rfl, rfl, hfront, hback⟩ := hinner.of_append
    rw [walk_cons_of_some (by rw [hopen]; rfl), walk_append (ih hfront (parens + 1))]
    -- the closing parenthesis is there and closes, or it is missing and what was opened stays open
    cases hback with
    | keep _ hnil =>
      cases hnil
      rw [Nat.add_right_comm, walk_cons_of_some (by rw [hclose]; rfl)]
      rfl
    | drop _ hnil =>
      cases hnil
      rw [Nat.zero_add, Nat.add_assoc, Nat.add_comm 1]
      rfl
  | factor _ ih | term _ ih => exact ih
  | productLeft _ hop hsign _ _ ihl ihr | productRight _ hop hsign _ _ ihl ihr =>
    exact ihl.binary ihr fun _ =>
      Rule.step?_of_multiplicative (Dialect.multiplicative_eq_some.2 ⟨hop, hsign⟩)
  | sum hop hsign _ _ ihl ihr =>
    refine ihl.binary ihr fun _ => ?_
    rw [hsign]
    exact Rule.step?_of_additive (Dialect.additive_of_isSumOp hop).1

/-- The tokens of a program are its header, its expression, and two tokens behind it. -/
theorem DerivesProgram.exists_parts {program : Program}
    (h : DerivesProgram dialect tokens program frames) :
    ∃ header inner semicolon closeBrace, tokens = header ++ (inner ++ [semicolon, closeBrace]) ∧
      header.length = 6 ∧ walk dialect .returnType header = some (.operand 0) ∧
      Derives dialect .expression inner program.returned frames ∧
      semicolon.kind = .semicolon := by
  cases h with
  | @program returnType name openParen closeParen openBrace keyword semicolon closeBrace inner e
      frames hreturnType hname hopenParen hcloseParen hopenBrace hkeyword hreturned hsemicolon _ =>
    refine ⟨[returnType, name, openParen, closeParen, openBrace, keyword], inner, semicolon,
      closeBrace, List.append_assoc _ _ _, rfl, ?_, hreturned, hsemicolon⟩
    simp [walk, step?, hreturnType, hname, hopenParen, hcloseParen, hopenBrace, hkeyword]

/-- With an open parenthesis the automaton is stuck at the semicolon. -/
theorem sticksAt_semicolon {header inner rest : List Token} {semicolon : Token}
    (hheader : walk dialect .returnType header = some (.operand 0))
    (hinner : walk dialect (.operand 0) inner = some (.after (k + 1)))
    (hsemicolon : semicolon.kind = .semicolon) :
    Automaton.SticksAt dialect (header ++ (inner ++ semicolon :: rest))
      (header.length + inner.length) (.after (k + 1)) semicolon := by
  rw [← List.append_assoc, ← List.length_append]
  refine ⟨?_, nofun, ?_, by rw [hsemicolon]; rfl⟩
  · rw [List.take_left, walk_append hheader, hinner]
  · rw [List.getElem?_append_right (Nat.le_refl _), Nat.sub_self]
    rfl

end Grammar

/-! ## The main theorem -/

namespace Parser

open Grammar (Automaton)

/-- **Missing closing parentheses are missed at the semicolon.** If a fresh parser accepts a list,
and any of the closing parentheses of its expression are taken out, then the parser consumes all
that is left before the semicolon, and reports that instead of it a closing parenthesis was
expected. -/
theorem missing_parens_stop_at_semicolon {position : Nat}
    (haccepts : Accepts dialect tokens position) (hsome : removed.Nonempty)
    (hremoved : ∀ i ∈ removed, 6 ≤ i ∧ i ≤ position - 3 ∧
      ∃ token ∈ tokens[i]?, token.kind = .closeParen) :
    let outcome :=
      (ofTokens { dialect, maxDepth := none } (without removed 0 tokens)).parseProgram
    ∃ semicolon, tokens[position - 2]? = some semicolon ∧ semicolon.kind = .semicolon ∧
      outcome.1 = .error (.unexpectedToken .closeParen semicolon) ∧
      Expectation.closeParen.describe = "')' to close the parenthesized expression" ∧
      outcome.2.position = position - 2 - removed.card := by
  intro outcome
  obtain ⟨⟨program, hparse⟩, hposition⟩ := haccepts
  obtain ⟨hle, -, frames, hderives, -⟩ := parseProgram_ok_iff.1 ⟨hparse, hposition⟩
  obtain ⟨header, inner, semicolon, closeBrace, hparts, hheader, hwalk, hreturned, hsemicolon⟩ :=
    hderives.exists_parts
  obtain ⟨later, rfl⟩ : ∃ later,
      tokens = header ++ (inner ++ semicolon :: closeBrace :: later) := by
    refine ⟨tokens.drop position, ?_⟩
    have hsplit := (List.take_append_drop position tokens).symm
    rw [hparts] at hsplit
    simpa using hsplit
  have hlength : position = header.length + inner.length + 2 := by
    have htake := List.length_take_of_le hle
    rw [hparts, List.length_append, List.length_append, ← Nat.add_assoc] at htake
    exact htake.symm
  -- all that is removed lies within the expression
  have hwithin : ∀ i ∈ removed, header.length ≤ i ∧ i < header.length + inner.length := by
    intro i hi
    obtain ⟨hlower, hupper, -⟩ := hremoved i hi
    omega
  have hdrops : Drops removed.card inner (without removed header.length inner) := by
    rw [← countP_range'_mem hwithin]
    refine drops_without fun i token htoken hi => ?_
    obtain ⟨-, -, other, hother, hkind⟩ := hremoved _ hi
    obtain ⟨hlt, -⟩ := List.getElem?_eq_some_iff.1 htoken
    rw [List.getElem?_append_right (Nat.le_add_right _ _), Nat.add_sub_cancel_left,
      List.getElem?_append_left hlt, htoken] at hother
    obtain rfl := Option.some.inj hother
    exact hkind
  obtain ⟨k, hk⟩ := Nat.exists_eq_add_one_of_ne_zero (Finset.card_ne_zero.2 hsome)
  have hopen := hreturned.staysOpen hdrops 0
  rw [Nat.zero_add, hk] at hopen
  have hsticks : Automaton.SticksAt dialect
      (header ++ (without removed header.length inner ++ semicolon :: closeBrace :: later)) _ _ _ :=
    Grammar.sticksAt_semicolon hwalk hopen hsemicolon
  rw [← without_middle hwithin] at hsticks
  obtain ⟨hresult, hend⟩ := unexpectedToken_of_sticksAt hsticks
  refine ⟨semicolon, ?_, hsemicolon, hresult, rfl, ?_⟩
  · rw [hlength, Nat.add_sub_cancel, ← List.append_assoc, ← List.length_append,
      List.getElem?_append_right (Nat.le_refl _), Nat.sub_self]
    rfl
  · have hfewer := hdrops.length_eq
    refine hend.trans ?_
    omega

/-- In `((1) * -(2 + 3))` the first and the last closing parenthesis are taken out. What is left is
`((1 * -(2 + 3)`, where the product has moved into the inner parentheses. -/
theorem missing_parens_stop_at_semicolon_twice :
    let tokens : List Token := [⟨.intKeyword, "int", ⟨1, 1⟩⟩, ⟨.identifier, "f", ⟨1, 5⟩⟩,
      ⟨.openParen, "(", ⟨1, 6⟩⟩, ⟨.closeParen, ")", ⟨1, 7⟩⟩, ⟨.openBrace, "\x7b", ⟨1, 9⟩⟩,
      ⟨.returnKeyword, "return", ⟨1, 11⟩⟩, ⟨.openParen, "(", ⟨1, 18⟩⟩, ⟨.openParen, "(", ⟨1, 19⟩⟩,
      ⟨.intLiteral, "1", ⟨1, 20⟩⟩, ⟨.closeParen, ")", ⟨1, 21⟩⟩, ⟨.star, "*", ⟨1, 23⟩⟩,
      ⟨.minus, "-", ⟨1, 25⟩⟩, ⟨.openParen, "(", ⟨1, 26⟩⟩, ⟨.intLiteral, "2", ⟨1, 27⟩⟩,
      ⟨.plus, "+", ⟨1, 29⟩⟩, ⟨.intLiteral, "3", ⟨1, 31⟩⟩, ⟨.closeParen, ")", ⟨1, 32⟩⟩,
      ⟨.closeParen, ")", ⟨1, 33⟩⟩, ⟨.semicolon, ";", ⟨1, 34⟩⟩, ⟨.closeBrace, "\x7d", ⟨1, 36⟩⟩]
    let outcome := (ofTokens { dialect := .legacy, maxDepth := none }
      (without {9, 17} 0 tokens)).parseProgram
    Accepts .legacy tokens 20 ∧ outcome.2.position = 16 ∧
      outcome.1 = .error (.unexpectedToken .closeParen ⟨.semicolon, ";", ⟨1, 34⟩⟩) := by
  intro tokens outcome
  have haccepts : Accepts .legacy tokens 20 := ⟨⟨_, rfl⟩, rfl⟩
  have hsome : ({9, 17} : Finset Nat).Nonempty := ⟨9, by decide⟩
  obtain ⟨semicolon, hget, -, hresult, -, hposition⟩ :=
    missing_parens_stop_at_semicolon haccepts hsome (by decide)
  obtain rfl := Option.some.inj hget
  exact ⟨haccepts, hposition, hresult⟩

end Parser

end MiniC
