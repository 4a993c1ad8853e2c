import Mathlib.Data.Set.Subsingleton
import MiniC.Proofs.Parse.Program

/-!
# The language that the parser reads

Without a limit on nesting, nothing but the grammar decides what a fresh parser makes of a token
list: it reads the derived program that the list starts with, and in strict mode the list must be
that program. One argument serves both dialects, for the rules of the parser take their operators
from the dialect just as the grammar does.
-/

namespace MiniC.Grammar

variable {dialect : Dialect} {tokens : List Token} {program : Program} {n : Nat}

/-- A fresh parser without a limit reads the program that a token list starts with. -/
theorem parse_prefix_iff :
    (Parser.ofTokens { dialect, maxDepth := none } tokens).parseProgram.1 = .ok program ∧
        (Parser.ofTokens { dialect, maxDepth := none } tokens).parseProgram.2.position = n ↔
      n ≤ tokens.length ∧ ∃ frames, DerivesProgram dialect (tokens.take n) program frames := by
  rw [Parser.parseProgram_ok_iff]
  constructor
  · rintro ⟨hle, -, frames, hderives, -⟩
    exact ⟨hle, frames, hderives⟩
  · rintro ⟨hle, frames, hderives⟩
    exact ⟨hle, by simp, frames, hderives, by simp⟩

/-- In strict mode it reads a whole token list or nothing. -/
theorem parse_whole_iff :
    (Parser.ofTokens { dialect, maxDepth := none, strict := true } tokens).parseProgram.1 =
        .ok program ↔
      ∃ frames, DerivesProgram dialect tokens program frames := by
  constructor
  · intro hrun
    obtain ⟨-, hwhole, frames, hderives, -⟩ := Parser.parseProgram_ok_iff.1 ⟨hrun, rfl⟩
    rw [hwhole rfl, List.take_length] at hderives
    exact ⟨frames, hderives⟩
  · rintro ⟨frames, hderives⟩
    rw [← tokens.take_length] at hderives
    exact (Parser.parseProgram_ok_iff.2
      ⟨Nat.le_refl _, fun _ => rfl, frames, hderives, by simp⟩).1

/-- The parser is a function, so the grammar is unambiguous: a token list starts with at most one
program, and has at most one tree for it. -/
theorem derivesProgram_subsingleton (dialect : Dialect) (tokens : List Token) :
    Set.Subsingleton {reading : Nat × Program | reading.1 ≤ tokens.length ∧
      ∃ frames, DerivesProgram dialect (tokens.take reading.1) reading.2 frames} := by
  rintro ⟨n, program⟩ hfirst ⟨m, other⟩ hsecond
  -- both readings are the outcome of the same call
  obtain ⟨hprogram, hn⟩ := parse_prefix_iff.2 hfirst
  obtain ⟨hother, hm⟩ := parse_prefix_iff.2 hsecond
  exact Prod.ext (hn.symm.trans hm) (Except.ok.inj (hprogram.symm.trans hother))

/-- **The standard dialect is the standard grammar**: what is read, how far, and as which
tree. -/
theorem standard_parse_iff_derives (tokens : List Token) :
    (∀ program n,
      (Parser.ofTokens { dialect := .standard, maxDepth := none } tokens).parseProgram.1 =
            .ok program ∧
          (Parser.ofTokens { dialect := .standard, maxDepth := none }
            tokens).parseProgram.2.position = n ↔
        n ≤ tokens.length ∧
          ∃ frames, DerivesProgram .standard (tokens.take n) program frames) ∧
    (∀ program,
      (Parser.ofTokens { dialect := .standard, maxDepth := none, strict := true }
            tokens).parseProgram.1 = .ok program ↔
        ∃ frames, DerivesProgram .standard tokens program frames) ∧
    Set.Subsingleton {reading : Nat × Program | reading.1 ≤ tokens.length ∧
      ∃ frames, DerivesProgram .standard (tokens.take reading.1) reading.2 frames} :=
  ⟨fun _ _ => parse_prefix_iff, fun _ => parse_whole_iff, derivesProgram_subsingleton _ _⟩

/-- **The legacy dialect is the legacy grammar**, though its products are read by a loop and its
sums are open to a multiplication sign: the loop of a term never leaves one behind. -/
theorem legacy_parse_iff_derives (tokens : List Token) :
    (∀ program n,
      (Parser.ofTokens { dialect := .legacy, maxDepth := none } tokens).parseProgram.1 =
            .ok program ∧
          (Parser.ofTokens { dialect := .legacy, maxDepth := none }
            tokens).parseProgram.2.position = n ↔
        n ≤ tokens.length ∧
          ∃ frames, DerivesProgram .legacy (tokens.take n) program frames) ∧
    (∀ program,
      (Parser.ofTokens { dialect := .legacy, maxDepth := none, strict := true }
            tokens).parseProgram.1 = .ok program ↔
        ∃ frames, DerivesProgram .legacy tokens program frames) :=
  ⟨fun _ _ => parse_prefix_iff, fun _ => parse_whole_iff⟩

end MiniC.Grammar
