import MiniC.Proofs.Parse.Segment

/-!
# The cap that a program needs

A program that is accepted without a cap on the nesting is accepted under the caps from some limit
on, and this limit can be read off its derivation: it is the number of frames. A row of literals
shows how the dialects differ. The standard one reads its operators in a loop, and any row needs
two levels; the legacy one reads the right side of a product as a product, and a row of factors
needs a level for each of them.

## The crux

A derivation has one number of frames, whatever the limit it was read under. So a run under a limit
either comes to the same program with the same frames, which the limit allows, or is cut off.

## The architecture

* **`Parser.accepts_iff_frames_le`** is the threshold of an accepted program.
* **`LiteralRow`** is a row of literals with operators between them. It grows at its end, where the
  standard grammar does (`LiteralRow.exists_last_term`); the legacy grammar reads it as the front
  of a term (`LiteralRow.derives_before`).
* **`cap_needed_eq_frames`** is the result.
-/

namespace MiniC

open Grammar (Derives DerivesProgram IsProductOp)

/-! ## The threshold of a program -/

namespace Parser

variable {settings : Settings} {tokens : List Token} {program : Program} {frames limit : Nat}

/-- The caps that leave an accepted program as it is are those from its frames on. -/
theorem accepts_iff_frames_le (h : (parseUnder settings tokens none).1 = .ok program)
    (hderives : DerivesProgram settings.dialect
      (tokens.take (parseUnder settings tokens none).2.position) program frames) :
    (parseUnder settings tokens (some limit)).1 = .ok program ∧
      (parseUnder settings tokens (some limit)).2.position =
        (parseUnder settings tokens none).2.position ↔ frames ≤ limit := by
  obtain ⟨hle, hstrict, -⟩ := parseProgram_ok_iff.1 ⟨h, rfl⟩
  constructor
  · intro hlimited
    obtain ⟨-, -, frames', hderives', hcap⟩ := parseProgram_ok_iff.1 hlimited
    rw [hderives.frames_unique hderives']
    exact hcap limit rfl
  · intro hframes
    refine parseProgram_ok_iff.2 ⟨hle, hstrict, frames, hderives, ?_⟩
    rintro _ ⟨⟩
    exact hframes

/-- A cap below its frames cuts an accepted program off. -/
theorem cut_of_lt_frames (h : (parseUnder settings tokens none).1 = .ok program)
    (hderives : DerivesProgram settings.dialect
      (tokens.take (parseUnder settings tokens none).2.position) program frames)
    (hlt : limit < frames) :
    ∃ location, (parseUnder settings tokens (some limit)).1 = .error (.tooDeep limit location) := by
  obtain ⟨hresult, hstate⟩ | ⟨hcut, -, -⟩ := parseUnder_cut settings tokens limit no_larger
  · have hposition := congrArg (fun s => s.cursor.position) hstate
    have hframes := (accepts_iff_frames_le h hderives).1 ⟨hresult.trans h, hposition⟩
    omega
  · exact hcut

end Parser

/-! ## Rows of literals -/

/-- `LiteralRow joins n row`: the row is `n` literals, and between them stand operators that
`joins` allows. -/
inductive LiteralRow (joins : BinaryOp → Prop) : Nat → List Token → Prop where
  | one {literal : Token} (hkind : literal.kind = .intLiteral) : LiteralRow joins 1 [literal]
  | more {n : Nat} {row : List Token} {sign literal : Token} {op : BinaryOp}
      (hrow : LiteralRow joins n row) (hop : joins op) (hsign : sign.kind = op.kind)
      (hkind : literal.kind = .intLiteral) :
      LiteralRow joins (n + 1) (row ++ [sign, literal])

/-- What is to come behind these tokens in a standard expression is a term: with any flat one they
make an expression of two frames. -/
def AwaitsTerm (before : List Token) : Prop :=
  ∀ term t, Derives .standard .term term t 1 →
    ∃ e, Derives .standard .expression (before ++ term) e 2

namespace LiteralRow

variable {joins : BinaryOp → Prop} {n : Nat} {row : List Token}

/-- A standard row ends in a flat term. The next operator goes into this term if it is one of a
product, and behind the whole row if it is one of a sum. -/
theorem exists_last_term (h : LiteralRow joins n row) :
    ∃ before last t, row = before ++ last ∧ Derives .standard .term last t 1 ∧
      AwaitsTerm before := by
  induction h with
  | one hkind => exact ⟨[], _, _, rfl, .factor (.literal hkind), fun _ t hterm => ⟨t, .term hterm⟩⟩
  | @more _ row sign literal op _ _ hsign hkind ih =>
    obtain ⟨before, last, t, rfl, hlast, hawaits⟩ := ih
    have hliteral : Derives .standard .factor [literal] _ 1 := .literal hkind
    obtain hsum | hproduct : Grammar.IsSumOp .standard op ∨ IsProductOp op :=
      Grammar.isSumOp_or_isProductOp (by simp)
    · obtain ⟨e, he⟩ := hawaits last t hlast
      refine ⟨before ++ last ++ [sign], [literal], _, by simp, .factor hliteral,
        fun term t hterm => ?_⟩
      rw [List.append_assoc]
      exact ⟨_, .sum hsum hsign he hterm⟩
    · exact ⟨before, last ++ [sign, literal], _, List.append_assoc _ _ _,
        .productLeft rfl hproduct hsign hlast hliteral, hawaits⟩

/-- A standard row of literals is an expression of two frames. -/
theorem derives_standard (h : LiteralRow joins n row) :
    ∃ e, Derives .standard .expression row e 2 := by
  obtain ⟨before, last, t, rfl, hlast, hawaits⟩ := h.exists_last_term
  exact hawaits last t hlast

/-- In front of a legacy term, a row of factors makes it longer, by a frame for each of them. -/
theorem derives_before (h : LiteralRow IsProductOp n row) {sign : Token} {op : BinaryOp}
    {rest : List Token} {t : Expr} {frames : Nat} (hop : IsProductOp op)
    (hsign : sign.kind = op.kind) (hrest : Derives .legacy .term rest t frames) :
    ∃ e, Derives .legacy .term (row ++ sign :: rest) e (n + frames) := by
  induction h generalizing sign op rest t frames with
  | one hkind =>
    have hterm := Derives.productRight rfl hop hsign (.literal hkind) hrest
    rw [show max 1 (1 + frames) = 1 + frames by omega] at hterm
    exact ⟨_, hterm⟩
  | @more n row sign' literal op' _ hop' hsign' hkind ih =>
    -- the last literal opens the term that the row in front of it is read with
    have hterm := Derives.productRight rfl hop hsign (.literal hkind) hrest
    obtain ⟨e, he⟩ := ih hop' hsign' hterm
    rw [show n + max 1 (1 + frames) = n + 1 + frames by omega] at he
    exact ⟨e, by simpa using he⟩

/-- A legacy row of factors is a term with a frame for each of them. -/
theorem derives_legacy (h : LiteralRow IsProductOp n row) :
    ∃ e, Derives .legacy .term row e n := by
  cases h with
  | one hkind => exact ⟨_, .factor (.literal hkind)⟩
  | more hrow hop hsign hkind => exact hrow.derives_before hop hsign (.factor (.literal hkind))

end LiteralRow

/-! ## The main theorem -/

/-- **A program needs as deep a cap as its derivation has frames.** What is accepted without a cap
has one number of frames. Under the limits from it on, the same program is read to the same place,
and under those below it the nesting is too deep. Any row of literals is a standard expression that
two levels suffice for, and no less, while a legacy product of `n` literals takes `n + 1`. -/
theorem cap_needed_eq_frames :
    (∀ (settings : Settings) (tokens : List Token) (program : Program),
      (Parser.parseUnder settings tokens none).1 = .ok program →
      ∃ frames,
        (∀ other, DerivesProgram settings.dialect
          (tokens.take (Parser.parseUnder settings tokens none).2.position) program other ↔
            other = frames) ∧
        ∀ limit,
          ((Parser.parseUnder settings tokens (some limit)).1 = .ok program ∧
            (Parser.parseUnder settings tokens (some limit)).2.position =
              (Parser.parseUnder settings tokens none).2.position ↔ frames ≤ limit) ∧
          (limit < frames → ∃ location,
            (Parser.parseUnder settings tokens (some limit)).1 =
              .error (.tooDeep limit location))) ∧
    (∀ n row, LiteralRow (fun _ => True) n row → ∃ e, IsExpression .standard row e 2) ∧
    ∀ n row, LiteralRow IsProductOp n row → ∃ e, IsExpression .legacy row e (n + 1) := by
  refine ⟨fun settings tokens program h => ?_, fun n row hrow => ?_, fun n row hrow => ?_⟩
  · obtain ⟨-, -, frames, hderives, -⟩ := Parser.parseProgram_ok_iff.1 ⟨h, rfl⟩
    refine ⟨frames, fun other => ⟨fun hother => hother.frames_unique hderives, ?_⟩,
      fun limit => ⟨Parser.accepts_iff_frames_le h hderives, Parser.cut_of_lt_frames h hderives⟩⟩
    rintro rfl
    exact hderives
  · obtain ⟨e, he⟩ := hrow.derives_standard
    exact ⟨e, he.isExpression⟩
  · obtain ⟨e, he⟩ := hrow.derives_legacy
    have hexpression := Derives.term he
    rw [Nat.add_comm] at hexpression
    exact ⟨e, hexpression.isExpression⟩

end MiniC
