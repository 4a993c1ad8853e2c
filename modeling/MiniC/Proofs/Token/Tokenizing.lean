import MiniC.Proofs.Result
import MiniC.Proofs.Token.Cutting
import MiniC.Token.Lexer

/-!
# The lexer and the texts it reads

The lexer reads a text without a fault exactly if the text is laid out as gaps and tokens in turn,
and then it yields those tokens (`walk_eq_ok_iff`). One direction goes along the layout, the other
along the lexemes.
-/

namespace MiniC

namespace Lexer

open Lexeme (ofText ofText_nil ofText_cons cut cut_fits cut_of_spelled)

variable {start : Location} {c : Char} {cs gap rest skip text : List Char} {tokens : List Token}

/-! ## One step of the walk -/

theorem walk_skip (hcut : cut c cs = (⟨.skipped, skip⟩, rest)) (start : Location) :
    walk start (ofText (c :: cs)) = walk (start.after skip) (ofText rest) := by
  rw [ofText_cons, hcut]
  rfl

/-- A lexeme that is a token is found at the place where it starts, and the walk goes on behind its
text. -/
theorem walk_token {kind : Token.Kind} {word : List Char}
    (hcut : cut c cs = (⟨.token kind, word⟩, rest)) (start : Location) :
    (walk start (ofText (c :: cs))).1 =
      (walk (start.after word) (ofText rest)).1.map (Token.ofLexeme kind word start :: ·) := by
  rw [ofText_cons, hcut]
  rfl

/-! ## Along a layout -/

/-- A gap is walked over, whatever is behind it. -/
theorem walk_gap (hgap : Gap gap) (rest : List Char) (start : Location) :
    walk start (ofText (gap ++ rest)) = walk (start.after gap) (ofText rest) := by
  induction hgap generalizing start with
  | nil => rfl
  | @blank c gap hblank _ ih =>
    rw [List.cons_append, walk_skip (Lexeme.cut_blank (Lexeme.isBlank_iff.2 hblank) _), ih]
    rfl
  | @lineComment body gap hbody _ ih =>
    have hcut := Lexeme.cut_lineComment hbody (gap ++ rest)
    rw [show '/' :: '/' :: body ++ '\n' :: gap ++ rest =
      '/' :: ('/' :: body ++ '\n' :: (gap ++ rest)) by simp, walk_skip hcut, ih,
      ← Location.after_append]
    simp
  | @directive body gap hbody _ ih =>
    have hcut := Lexeme.cut_directive hbody (gap ++ rest)
    rw [show '#' :: body ++ '\n' :: gap ++ rest = '#' :: (body ++ '\n' :: (gap ++ rest)) by simp,
      walk_skip hcut, ih, ← Location.after_append]
    simp
  | @blockComment body gap hbody _ ih =>
    have hcut := Lexeme.cut_blockComment hbody (gap ++ rest)
    rw [show '/' :: '*' :: body ++ '*' :: '/' :: gap ++ rest =
      '/' :: ('*' :: body ++ '*' :: '/' :: (gap ++ rest)) by simp, walk_skip hcut, ih,
      ← Location.after_append]
    simp

/-- Nothing is found in the gap at the end of a text, even where a line is cut off. -/
theorem walk_lastGap (hgap : LastGap gap) (start : Location) :
    (walk start (ofText gap)).1 = .ok [] := by
  cases hgap with
  | gap hgap =>
    have hwalk := walk_gap hgap [] start
    rw [List.append_nil] at hwalk
    rw [hwalk, ofText_nil]
    rfl
  | lineComment hgap hbody =>
    rw [walk_gap hgap, walk_skip (Lexeme.cut_lastLineComment hbody), ofText_nil]
    rfl
  | directive hgap hbody =>
    rw [walk_gap hgap, walk_skip (Lexeme.cut_lastDirective hbody), ofText_nil]
    rfl

/-- A text that is laid out is read as its tokens. -/
theorem walk_of_laidOut (h : LaidOut start text tokens) :
    (walk start (ofText text)).1 = .ok tokens := by
  induction h with
  | last hgap => exact walk_lastGap hgap _
  | @token start gap rest token tokens hgap htoken hplace hend _ ih =>
    obtain ⟨c, cs, htext, hcut⟩ := cut_of_spelled htoken.spelled hend
    rw [List.append_assoc, walk_gap hgap, htext, walk_token hcut, ← hplace, ih]
    simp [Except.map, Token.ofLexeme]

/-! ## Along the lexemes -/

/-- A gap in front of a text that is laid out becomes a part of its first gap. -/
theorem laidOut_of_gap (hgap : Gap gap) (h : LaidOut (start.after gap) text tokens) :
    LaidOut start (gap ++ text) tokens := by
  cases h with
  | last hlast =>
    refine .last ?_
    cases hlast with
    | gap hgap' => exact .gap (hgap.append hgap')
    | lineComment hgap' hbody =>
      rw [← List.append_assoc]
      exact .lineComment (hgap.append hgap') hbody
    | directive hgap' hbody =>
      rw [← List.append_assoc]
      exact .directive (hgap.append hgap') hbody
  | @token _ gap' rest token tokens hgap' htoken hplace hend hrest =>
    rw [show gap ++ (gap' ++ token.text.toList ++ rest) =
      (gap ++ gap') ++ token.text.toList ++ rest by simp]
    rw [← Location.after_append] at hplace
    exact .token (hgap.append hgap') htoken hplace hend hrest

/-- A text that is read is laid out. -/
theorem laidOut_of_walk (h : (walk start (ofText text)).1 = .ok tokens) :
    LaidOut start text tokens := by
  fun_induction ofText text generalizing start tokens with
  | case1 =>
    obtain rfl : [] = tokens := Except.ok.inj h
    exact .last (.gap .nil)
  | case2 c cs ih =>
    have hfits := cut_fits c cs
    rw [← Lexeme.cut_text c cs]
    -- what was cut off, and what the walk makes of it
    generalize cut c cs = split at hfits h ih
    obtain ⟨⟨reading, word⟩, rest⟩ := split
    dsimp only at hfits h ih ⊢
    cases reading with
    | skipped =>
      have hrest := ih h
      -- a comment that the end of the text cuts off has nothing behind it
      rcases hfits with hgap | ⟨hgap, rfl⟩
      · exact laidOut_of_gap hgap hrest
      · rw [ofText_nil] at h
        obtain rfl : [] = tokens := Except.ok.inj h
        rw [List.append_nil]
        exact .last hgap
    | token kind =>
      obtain ⟨later, hlater, rfl⟩ := Result.map_eq_ok_iff.1 h
      obtain ⟨hword, hend⟩ := hfits
      have hchars : (Token.ofLexeme kind word start).text.toList = word := String.toList_ofList
      have hrest : LaidOut ((start.after []).after (Token.ofLexeme kind word start).text.toList)
          rest later := by
        rw [hchars]
        exact ih hlater
      have hlaid :=
        LaidOut.token .nil (Token.wellFormed_of_spelled (by rwa [hchars])) rfl hend hrest
      rwa [hchars] at hlaid
    | fault cause => cases h

/-- **The lexer reads the texts that are laid out, as the tokens they are laid out with.** -/
theorem walk_eq_ok_iff :
    (walk start (ofText text)).1 = .ok tokens ↔ LaidOut start text tokens :=
  ⟨laidOut_of_walk, walk_of_laidOut⟩

end Lexer

end MiniC
