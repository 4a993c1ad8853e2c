import MiniC.Proofs.Parse.Depth
import MiniC.Proofs.Parse.Program

/-!
# The cap is a threshold

A fresh parser is given one token list under one limit after another. There is a number of levels
that decides what happens: under every limit below it the parser stops at a rule that is nested too
deep, and from it on every limit is as good as none. The number is the depth that the run without a
cap reaches.

## The architecture

* **`parseUnder`** is the first call of a parser under a cap, **`nesting`** is the number.
* **`parseUnder_cut`** compares two caps: the run under the tighter one is cut off, or the same.
* **`parseUnder_of_nesting_le`**, **`parseUnder_of_lt_nesting`** are the two sides of the threshold.
* **`nesting_eq_zero`, `le_nesting`, `nesting_le`** say where it lies.
-/

namespace MiniC

namespace Parser

open Rule (header)

variable {settings : Settings} {tokens : List Token} {limit : Nat} {cap : Option Nat}

/-- The first call of a parser, under a cap in place of the one that is set. -/
def parseUnder (settings : Settings) (tokens : List Token) (cap : Option Nat) :
    Except ParseError Program × Parser :=
  (ofTokens (settings.withMaxDepth cap) tokens).parseProgram

/-- The depth that is reached without a cap. -/
def nesting (settings : Settings) (tokens : List Token) : Nat :=
  (parseUnder settings tokens none).2.state.peak

variable (settings tokens)

/-- A call under a cap is a run of the rule for programs under that cap. -/
theorem parseUnder_eq (cap : Option Nat) :
    parseUnder settings tokens cap =
      match (Rule.program settings.dialect.operators cap settings.strict).run
        { cursor := .ofList tokens } with
      | .ok program state => (.ok program, ⟨settings.withMaxDepth cap, state⟩)
      | .error error state => (.error error, ⟨settings.withMaxDepth cap, state⟩) := rfl

/-- The call ends in the state that the rule for programs ends in. -/
theorem state_parseUnder (cap : Option Nat) :
    (parseUnder settings tokens cap).2.state =
      ((Rule.program settings.dialect.operators cap settings.strict).run
        { cursor := .ofList tokens }).state := by
  rw [parseUnder_eq]
  split <;> next hrun => rw [hrun]; rfl

/-! ## Two caps -/

/-- No limit is tighter than none. -/
theorem no_larger : ∀ larger ∈ (none : Option Nat), limit ≤ larger := by simp

/-- **Under a limit a call does what it does under a looser cap, or is cut off on the way.** -/
theorem parseUnder_cut (limit : Nat) (hcap : ∀ larger ∈ cap, limit ≤ larger) :
    (parseUnder settings tokens (some limit)).1 = (parseUnder settings tokens cap).1 ∧
        (parseUnder settings tokens (some limit)).2.state =
          (parseUnder settings tokens cap).2.state ∨
      (∃ location, (parseUnder settings tokens (some limit)).1 = .error (.tooDeep limit location)) ∧
        (parseUnder settings tokens (some limit)).2.position ≤
          (parseUnder settings tokens cap).2.position ∧
        limit < (parseUnder settings tokens cap).2.state.peak := by
  have hcut := (Rule.truncates_program hcap settings.dialect.operators settings.strict).cut
    { cursor := .ofList tokens } (Nat.zero_le limit)
  rw [parseUnder_eq, parseUnder_eq]
  generalize (Rule.program _ (some limit) _).run _ = tight at hcut
  generalize (Rule.program _ cap _).run _ = loose at hcut
  cases hcut with
  | same => cases tight <;> exact .inl ⟨rfl, rfl⟩
  | short hposition hdeeper => cases loose <;> exact .inr ⟨⟨_, rfl⟩, hposition, hdeeper⟩

/-- A call never nests deeper than its limit. -/
theorem peak_parseUnder_le (limit : Nat) :
    (parseUnder settings tokens (some limit)).2.state.peak ≤ limit := by
  have hsteady : Rule.State.Ahead (some limit) { cursor := .ofList tokens } _ :=
    Rule.steady_program settings.dialect.operators settings.strict { cursor := .ofList tokens }
  have hpeak := hsteady.peak_le_max limit rfl
  rw [← state_parseUnder] at hpeak
  exact Nat.le_trans hpeak (Nat.max_le.2 ⟨Nat.zero_le limit, Nat.le_refl limit⟩)

/-! ## The two sides of the threshold -/

variable {settings tokens}

/-- From the threshold on a limit changes nothing. -/
theorem parseUnder_of_nesting_le (h : nesting settings tokens ≤ limit) :
    (parseUnder settings tokens (some limit)).1 = (parseUnder settings tokens none).1 ∧
      (parseUnder settings tokens (some limit)).2.position =
        (parseUnder settings tokens none).2.position := by
  obtain ⟨hresult, hstate⟩ | ⟨-, -, hdeeper⟩ :=
    parseUnder_cut settings tokens limit no_larger
  · exact ⟨hresult, congrArg (fun s => s.cursor.position) hstate⟩
  · exact absurd hdeeper (Nat.not_lt.2 h)

/-- Below the threshold every limit cuts the call off. -/
theorem parseUnder_of_lt_nesting (h : limit < nesting settings tokens) :
    ∃ location, (parseUnder settings tokens (some limit)).1 = .error (.tooDeep limit location) := by
  obtain ⟨-, hstate⟩ | ⟨hcut, -, -⟩ :=
    parseUnder_cut settings tokens limit no_larger
  · -- the same run without the limit would have gone above it
    have hpeak := peak_parseUnder_le settings tokens limit
    rw [hstate] at hpeak
    exact absurd h (Nat.not_lt.2 hpeak)
  · exact hcut

/-- Under a looser cap a call ends no earlier. -/
theorem position_parseUnder_le (hcap : ∀ larger ∈ cap, limit ≤ larger) :
    (parseUnder settings tokens (some limit)).2.position ≤
      (parseUnder settings tokens cap).2.position := by
  obtain ⟨-, hstate⟩ | ⟨-, hposition, -⟩ := parseUnder_cut settings tokens limit hcap
  · exact Nat.le_of_eq (congrArg (fun s => s.cursor.position) hstate)
  · exact hposition

/-! ## Where the threshold lies -/

/-- Without the header of a function nothing nests. -/
theorem nesting_eq_zero (h : ¬ header <+: tokens.map Token.kind) : nesting settings tokens = 0 := by
  rw [nesting, state_parseUnder]
  exact Rule.peak_program_of_not_header _ _ _ none h

/-- Every parenthesis in a row behind the header adds two to the threshold. -/
theorem le_nesting {k : Nat}
    (h : header ++ List.replicate k .openParen <+: tokens.map Token.kind) :
    2 * k + 2 ≤ nesting settings tokens := by
  have hreaches : 0 + (2 * k + 2) ≤
      ((Rule.program settings.dialect.operators none settings.strict).run
        { cursor := .ofList tokens }).state.peak :=
    Rule.le_peak_program _ _ { cursor := .ofList tokens } h
  rw [nesting, state_parseUnder]
  omega

/-- The threshold is at most what a row of parentheses of that length would need. -/
theorem nesting_le (h : header <+: tokens.map Token.kind) :
    nesting settings tokens + 10 ≤ 2 * tokens.length := by
  have hbound : ((Rule.program settings.dialect.operators none settings.strict).run
        { cursor := .ofList tokens }).state.peak + 10 ≤ max (0 + 10) (0 + 2 * tokens.length) :=
    Rule.peak_program_le _ _ { cursor := .ofList tokens } none h
  have hlength : 6 ≤ tokens.length := by simpa [header] using h.length_le
  rw [nesting, state_parseUnder]
  omega

/-- For a program the threshold is the number of frames of its derivation. -/
theorem nesting_of_derives {program : Program} {frames : Nat}
    (h : Grammar.DerivesProgram settings.dialect tokens program frames) :
    (parseUnder settings tokens none).1 = .ok program ∧ nesting settings tokens = frames := by
  have hrest : (Cursor.ofList tokens).rest = tokens ++ [] := (List.append_nil tokens).symm
  obtain ⟨t, hpast, hrun⟩ : ∃ t,
      Rule.State.Past { cursor := .ofList tokens } tokens (0 + frames) t ∧
      (Rule.program settings.dialect.operators none settings.strict).run
        { cursor := .ofList tokens } = .ok program t :=
    Rule.run_program settings.strict h hrest (by simp) (fun _ => rfl)
  have hpeak : t.peak = max 0 (0 + frames) := hpast.peak_eq
  rw [nesting, state_parseUnder, parseUnder_eq, hrun]
  refine ⟨rfl, ?_⟩
  show t.peak = frames
  omega

/-- **The cap on the nesting is a clean threshold.** For every list of tokens, every dialect, and
whether or not tokens behind the function are refused, one number divides the limits: below it the
call fails because of the limit, from it on it does what it does without one. The number is zero
without a header, and otherwise at least two and at most what a row of parentheses needs. A looser
cap never ends the call earlier, and changes no outcome but that of a call that was cut off. -/
theorem exists_nesting_threshold (settings : Settings) (tokens : List Token) :
    ∃ threshold,
      (∀ limit < threshold, ∃ location,
        (parseUnder settings tokens (some limit)).1 = .error (.tooDeep limit location)) ∧
      (∀ limit ≥ threshold,
        (parseUnder settings tokens (some limit)).1 = (parseUnder settings tokens none).1 ∧
          (parseUnder settings tokens (some limit)).2.position =
            (parseUnder settings tokens none).2.position) ∧
      (¬ header <+: tokens.map Token.kind → threshold = 0) ∧
      (header <+: tokens.map Token.kind →
        2 ≤ threshold ∧ threshold + 10 ≤ 2 * tokens.length) ∧
      (∀ k, tokens.map Token.kind = header ++ List.replicate k .openParen →
        threshold + 10 = 2 * tokens.length) ∧
      (∀ limit limit', limit ≤ limit' →
        (parseUnder settings tokens (some limit)).2.position ≤
          (parseUnder settings tokens (some limit')).2.position) ∧
      (∀ limit, (parseUnder settings tokens (some limit)).2.position ≤
        (parseUnder settings tokens none).2.position) ∧
      ∀ limit cap, (∀ larger ∈ cap, limit ≤ larger) →
        (∃ location, (parseUnder settings tokens (some limit)).1 =
          .error (.tooDeep limit location)) ∨
        (parseUnder settings tokens (some limit)).1 = (parseUnder settings tokens cap).1 ∧
          (parseUnder settings tokens (some limit)).2.position =
            (parseUnder settings tokens cap).2.position := by
  refine ⟨nesting settings tokens, fun _ => parseUnder_of_lt_nesting,
    fun _ => parseUnder_of_nesting_le, nesting_eq_zero, fun hheader => ⟨?_, nesting_le hheader⟩,
    fun k hkinds => ?_, fun limit limit' hle => ?_, fun limit => ?_, fun limit cap hcap => ?_⟩
  · -- even the shortest expression is an expression with a factor in it
    exact le_nesting (k := 0) (by simpa using hheader)
  · have hall : header ++ List.replicate k .openParen <+: tokens.map Token.kind :=
      ⟨[], (List.append_nil _).trans hkinds.symm⟩
    have hlower : 2 * k + 2 ≤ nesting settings tokens := le_nesting hall
    have hupper : nesting settings tokens + 10 ≤ 2 * tokens.length :=
      nesting_le ((List.prefix_append _ _).trans hall)
    have hlength : tokens.length = 6 + k := by
      rw [← List.length_map (f := Token.kind), hkinds, List.length_append, List.length_replicate]
      rfl
    omega
  · exact position_parseUnder_le (by simpa using hle)
  · exact position_parseUnder_le no_larger
  · obtain ⟨hresult, hstate⟩ | ⟨hcut, -, -⟩ := parseUnder_cut settings tokens limit hcap
    · exact .inr ⟨hresult, congrArg (fun s => s.cursor.position) hstate⟩
    · exact .inl hcut

end Parser

end MiniC
