import MiniC.Proofs.Grammar.Minus
import MiniC.Proofs.Grammar.Outcome
import MiniC.Proofs.Grammar.Regrouping
import MiniC.Proofs.Parse.Program

/-!
# How the dialects relate

What the legacy dialect accepts, the standard dialect accepts up to the same place and under the
same caps; of the two trees each folds the chains of factors its own way, and everything else is
equal. The other way around subtraction is all that the legacy dialect lacks: it accepts what the
standard dialect reads as a tree without one, and stops at the first binary minus of any other.
-/

namespace MiniC

open Grammar (Automaton BinaryMinusAt DerivesProgram Written unclosed)

variable {tokens : List Token} {cap : Option Nat} {strict : Bool} {program : Program} {n : Nat}

namespace Parser

/-- The tokens of the expression are the same, whether they are counted from the whole list or from
the program at its front. -/
theorem drop_take_expression (tokens : List Token) {n : Nat} (h : n ≤ tokens.length) :
    ((tokens.take n).drop 6).take ((tokens.take n).length - 8) =
      (tokens.drop 6).take (n - 8) := by
  rw [List.length_take, Nat.min_eq_left h, List.drop_take, List.take_take]
  congr 1
  omega

/-- A list that the legacy dialect accepts is written as the standard dialect writes, and needs no
more frames there. -/
theorem exists_regrouping
    (h : (ofTokens { dialect := .legacy, maxDepth := cap, strict } tokens).parseProgram.1 =
      .ok program)
    (hn : (ofTokens { dialect := .legacy, maxDepth := cap, strict }
      tokens).parseProgram.2.position = n) :
    ∃ written : Written .expression,
      written.tokens = (tokens.drop 6).take (n - 8) ∧
      program.returned = written.tree .right ∧
      (ofTokens { dialect := .standard, maxDepth := cap, strict } tokens).parseProgram.1 =
        .ok (program.withReturned (written.tree .left)) ∧
      (ofTokens { dialect := .standard, maxDepth := cap, strict } tokens).parseProgram.2.position =
        n := by
  obtain ⟨hle, hstrict, frames, hderives, hcap⟩ := parseProgram_ok_iff.1 ⟨h, hn⟩
  obtain ⟨hreturned, hreplace⟩ := hderives.expression
  obtain ⟨written, htokens, htree, hframes⟩ := hreturned.exists_written
  have hstandard := written.derives_standard
  rw [htokens] at hstandard
  refine ⟨written, ?_, htree.symm, parseProgram_ok_iff.2
    ⟨hle, hstrict, written.frames .standard, hreplace hstandard, fun limit hlimit => ?_⟩⟩
  · rw [htokens, drop_take_expression tokens hle]
  · -- the standard derivation has no more frames than the one that met the cap
    have hfew := written.frames_standard_le
    have hlegacy := hcap limit hlimit
    dsimp only at hframes
    omega

/-- What the legacy dialect accepts is no subtraction to the standard dialect either. -/
theorem exists_standard_not_subtracts
    (h : (ofTokens { dialect := .legacy, maxDepth := cap, strict } tokens).parseProgram.1 =
      .ok program) :
    ∃ other, (ofTokens { dialect := .standard, maxDepth := cap, strict } tokens).parseProgram.1 =
      .ok other ∧ ¬ other.returned.Subtracts := by
  obtain ⟨written, -, htree, hstandard, -⟩ := exists_regrouping h rfl
  obtain ⟨-, -, frames, hderives, -⟩ := parseProgram_ok_iff.1 ⟨h, rfl⟩
  have hnone := hderives.expression.1.not_subtracts
  rw [htree, ← written.subtracts_tree] at hnone
  exact ⟨_, hstandard, hnone⟩

/-- Without a subtraction the legacy dialect has nothing to object. -/
theorem legacy_of_standard
    (h : (ofTokens { dialect := .standard, maxDepth := none, strict } tokens).parseProgram.1 =
      .ok program) (hsubtracts : ¬ program.returned.Subtracts) :
    ∃ other, (ofTokens { dialect := .legacy, maxDepth := none, strict } tokens).parseProgram.1 =
      .ok other := by
  obtain ⟨hle, hstrict, frames, hderives, -⟩ := parseProgram_ok_iff.1 ⟨h, rfl⟩
  obtain ⟨hreturned, hreplace⟩ := hderives.expression
  obtain ⟨written, htokens, htree, -⟩ := hreturned.exists_written
  rw [← htree] at hsubtracts
  -- the phrase folded the other way subtracts nothing either
  have hlegacy := Written.derives_legacy (mt written.subtracts_tree.2 hsubtracts)
  rw [htokens] at hlegacy
  have hparse : (ofTokens { dialect := .legacy, maxDepth := none, strict } tokens).parseProgram.1 =
        .ok (program.withReturned (written.tree .right)) ∧ _ :=
    parseProgram_ok_iff.2 ⟨hle, hstrict, _, hreplace hlegacy, by simp⟩
  exact ⟨_, hparse.1⟩

/-- With a subtraction the legacy dialect stops at the first binary minus. -/
theorem legacy_stops_at_minus
    (h : (ofTokens { dialect := .standard, maxDepth := none } tokens).parseProgram.1 =
      .ok program) (hsubtracts : program.returned.Subtracts) :
    ∃ position sign, BinaryMinusAt tokens position ∧
      (∀ earlier < position, ¬ BinaryMinusAt tokens earlier) ∧
      tokens[position]? = some sign ∧
      (ofTokens { dialect := .legacy, maxDepth := none } tokens).parseProgram.1 =
        .error (.unexpectedToken
          (if unclosed (tokens.take position) = 0 then .endOfStatement else .closeParen) sign) ∧
      (ofTokens { dialect := .legacy, maxDepth := none } tokens).parseProgram.2.position =
        position := by
  have hne : tokens ≠ [] := by
    rintro rfl
    cases h
  have haccounts := parseProgram_accounts_uncapped .standard hne
  rw [h] at haccounts
  obtain ⟨hle, hwalk⟩ := haccounts
  -- the two automata part at a minus behind an operand, if at all
  rcases Automaton.walk_legacy_or_minus hwalk with
    hlegacy | ⟨front, sign, back, parens, hfront, hminus, hlegacy⟩
  · -- had the legacy automaton gone all the way, the tree would hold no subtraction
    obtain ⟨⟨other, hother⟩, -⟩ := exists_program_of_acceptsAfter ⟨hle, hlegacy⟩
    obtain ⟨same, hstandard, hnone⟩ := exists_standard_not_subtracts hother
    obtain rfl := Except.ok.inj (h.symm.trans hstandard)
    exact absurd hsubtracts hnone
  · -- where they part the legacy automaton is stuck, and up to there it met no binary minus
    obtain ⟨behind, hbehind⟩ : front ++ sign :: back <+: tokens := by
      rw [← hfront]
      exact List.take_prefix _ tokens
    have htokens : tokens = front ++ sign :: (back ++ behind) := by
      rw [← hbehind, List.append_assoc, List.cons_append]
    have hsticks : Automaton.SticksAt .legacy tokens front.length (.after parens) sign := by
      refine ⟨?_, nofun, ?_, ?_⟩
      · rw [htokens, List.take_left]
        exact hlegacy
      · rw [htokens]
        simp
      · rw [hminus]
        exact Automaton.step?_legacy_after_minus parens
    obtain ⟨hresult, hposition⟩ := unexpectedToken_of_sticksAt hsticks
    have hunclosed : unclosed (tokens.take front.length) = parens := by
      rw [htokens, List.take_left]
      exact Automaton.unclosed_of_walk hlegacy
    refine ⟨front.length, sign, ?_, fun earlier hearlier => ?_, hsticks.2.2.1, ?_, hposition⟩
    · rw [htokens]
      exact Automaton.binaryMinusAt_of_walk hlegacy hminus
    · rw [htokens]
      exact Automaton.not_binaryMinusAt_of_walk hlegacy hearlier
    · rw [hresult, hunclosed]
      cases parens <;> rfl

end Parser

end MiniC
