import MiniC.Proofs.Token.Faithful
import MiniC.Proofs.Token.Faults

/-!
# A lexer that is called again

A call that fails leaves the lexer behind the fault, and the next one goes on from there. So the
calls on one lexer pass one stray character after the other, until the rest of the text is read, or
a comment takes all of it. The call that succeeds answers with what stands behind the last fault.
The same tokens come out of a single call, if the stray characters are blanks.

## The crux

An item ends at a stray character as it ends at a blank: it would have swallowed neither of them.
So what was read up to a fault is read again with a blank in its place, and what is behind a blank
is read on its own (`Passed.blanked`). Both take one column, and no place changes.

## The architecture

* **`Munches.walk_ok`** is the walk along a reading, with the tokens that it finds.
* **`Passed`** are the places where the lexer stands when it is called again: at the start of the
  text, and behind each stray character that a call has failed at. **`Munches.tokenize_stray`** is
  one call that leads from such a place to the next.
* **`Passed.session`** is the run up to a place, **`Passed.blanked`** the text with blanks up to it.
* **`Passed.exists_end`** finds the last one, and **`session_reads_blanked`** is the result.
-/

namespace MiniC

open Lexeme (ofText ofText_cons ofText_nil)

/-- The text with a blank in the place of the character at every offset. -/
def blankedAt (offsets : List Nat) (text : List Char) : List Char :=
  offsets.foldl (fun text offset => text.set offset ' ') text

/-- The error about the character at an offset, at the place where it stands. -/
def strayAt (text : List Char) (offset : Nat) : LexError :=
  ⟨.unexpectedChar (text.getD offset ' '), Location.behind (text.take offset)⟩

/-- The token starts behind the last of the offsets, if there is one. -/
def StartsBehind (text : List Char) (offsets : List Nat) (token : Token) : Prop :=
  ∀ offset ∈ offsets.getLast?, (Location.behind (text.take offset)).Before token.location

instance (text : List Char) (offsets : List Nat) (token : Token) :
    Decidable (StartsBehind text offsets token) :=
  inferInstanceAs (Decidable (∀ offset ∈ offsets.getLast?, _))

variable {c : Char} {item before front rest text : List Char} {offsets : List Nat}
  {start : Location} {tokens : List Token}

/-! ## Readings and blanks -/

/-- A stray character takes one column, as the blank in its place does. -/
theorem Stray.ne_newline (h : Stray c) : c ≠ '\n' := by
  rintro rfl
  exact h.2.2 (by simp)

/-- What ends in front of a text ends in front of a blank, for no token runs into one. -/
theorem Munches.before_blank (h : Munches front rest) (hne : rest ≠ []) (behind : List Char) :
    Munches front (' ' :: behind) := by
  refine h.replace hne fun c hc kind => ?_
  obtain rfl : ' ' = c := Option.some.inj hc
  rw [runsInto_opensGap (.inl rfl)]
  exact fun hslash => absurd hslash.2 (by decide)

/-! ## The tokens of a reading -/

/-- In front of what is read without an error, the walk over an item finds a token at its start, or
none. -/
theorem Munch.walk_ok (h : Munch item rest) {lexer : Lexer}
    (hrest : Lexer.walk (start.after item) (ofText rest) = (.ok tokens, lexer)) :
    ∃ found : List Token, (∀ token ∈ found, token.location = start) ∧
      Lexer.walk start (ofText (item ++ rest)) = (.ok (found ++ tokens), lexer) := by
  obtain ⟨c, cs, reading, htext, hcut, hfault⟩ := h.cut
  rw [htext, ofText_cons, hcut]
  cases reading with
  | skipped => exact ⟨[], by simp, hrest⟩
  | token kind =>
    refine ⟨[Token.ofLexeme kind item start], by simp [Token.ofLexeme], ?_⟩
    rw [Lexer.walk, hrest]
    rfl
  | fault cause => exact absurd rfl (hfault cause)

/-- The walk along a reading finds tokens that all start before its end. -/
theorem Munches.walk_ok (h : Munches front rest) {lexer : Lexer}
    (hrest : Lexer.walk (start.after front) (ofText rest) = (.ok tokens, lexer)) :
    ∃ found : List Token, (∀ token ∈ found, token.location.Before (start.after front)) ∧
      Lexer.walk start (ofText (front ++ rest)) = (.ok (found ++ tokens), lexer) := by
  induction h generalizing start with
  | nil => exact ⟨[], by simp, hrest⟩
  | @item item front rest hitem _ ih =>
    rw [Location.after_append] at hrest
    obtain ⟨later, hlater, hwalk⟩ := ih hrest
    obtain ⟨first, hfirst, hwalk'⟩ := hitem.walk_ok hwalk
    refine ⟨first ++ later, fun token htoken => ?_, by simpa using hwalk'⟩
    rcases List.mem_append.1 htoken with hmem | hmem
    · rw [hfirst token hmem]
      exact Location.before_after (by simp [hitem.ne_nil]) start
    · rw [Location.after_append]
      exact hlater token hmem

/-- The walk along a reading fails at a comment behind it that is never closed. -/
theorem Munches.walk_open (h : Munches front ('/' :: '*' :: rest))
    (hopen : ¬ ['*', '/'] <:+: rest) (hplace : start.after front = Location.behind before) :
    Lexer.walk start (ofText (front ++ '/' :: '*' :: rest)) =
      (.error ⟨.unterminatedComment, Location.behind before⟩,
        Lexer.standing (before ++ '/' :: '*' :: rest) []) := by
  rw [h.walk_iff, hplace]
  exact walk_of_open hopen before

/-! ## From one fault to the next -/

/-- `Passed text before rest offsets`: the first calls on a text fail at stray characters at the
offsets, and the next one begins between `before` and `rest`. -/
inductive Passed (text : List Char) : List Char → List Char → List Nat → Prop where
  | start : Passed text [] text []
  | stray {before front rest : List Char} {c : Char} {offsets : List Nat}
      (hpassed : Passed text before (front ++ c :: rest) offsets)
      (hread : Munches front (c :: rest)) (hstray : Stray c) :
      Passed text (before ++ front ++ [c]) rest (offsets ++ [(before ++ front).length])

/-- A lexer with nothing to read finds no tokens, however often it is called. -/
theorem Lexer.session_exhausted (start : Location) (calls : Nat) :
    Lexer.session calls ⟨[], start⟩ = List.replicate calls (.ok []) := by
  induction calls with
  | zero => rfl
  | succ calls ih => rw [session, tokenize_exhausted, ih, List.replicate_succ]

/-- One call that comes to a stray character. -/
theorem Munches.tokenize_stray (h : Munches front (c :: rest)) (hstray : Stray c)
    (before : List Char) :
    (Lexer.standing before (front ++ c :: rest)).tokenize =
      (.error ⟨.unexpectedChar c, Location.behind (before ++ front)⟩,
        Lexer.standing (before ++ front ++ [c]) rest) := by
  show Lexer.walk (Location.behind before) (ofText (front ++ c :: rest)) = _
  rw [h.walk_iff, Location.after_behind]
  exact walk_of_stray hstray (before ++ front) rest

namespace Passed

/-- What is passed and what is still to come make up the text. -/
theorem text_eq (h : Passed text before rest offsets) : text = before ++ rest := by
  induction h with
  | start => rfl
  | stray _ _ _ ih => rw [ih]; simp

/-- The offset of a fault counts the characters in front of it. -/
theorem take_eq (h : Passed text before (front ++ rest) offsets) :
    text.take (before ++ front).length = before ++ front := by
  rw [h.text_eq, ← List.append_assoc]
  exact List.take_left

/-- So the error that belongs to that offset is about the character there, and stands at its
place. -/
theorem strayAt_eq (h : Passed text before (front ++ c :: rest) offsets) :
    strayAt text (before ++ front).length =
      ⟨.unexpectedChar c, Location.behind (before ++ front)⟩ := by
  rw [strayAt, h.take_eq, h.text_eq, ← List.append_assoc]
  simp

/-- The offsets increase, and all lie in what is passed. -/
theorem increasing (h : Passed text before rest offsets) :
    offsets.Pairwise (· < ·) ∧ (∀ offset ∈ offsets, offset < before.length) ∧
      offsets.length ≤ before.length := by
  induction h with
  | start => exact ⟨.nil, by simp, Nat.le_refl _⟩
  | @stray before front rest c offsets _ _ _ ih =>
    obtain ⟨hpairwise, hbound, hlength⟩ := ih
    simp only [List.length_append, List.length_singleton]
    refine ⟨List.pairwise_append.2 ⟨hpairwise, List.pairwise_singleton _ _, ?_⟩, ?_, by omega⟩
    · intro offset hoffset last hlast
      obtain rfl := List.mem_singleton.1 hlast
      have hlt := hbound offset hoffset
      omega
    · intro offset hoffset
      rcases List.mem_append.1 hoffset with hmem | hmem
      · have hlt := hbound offset hmem
        omega
      · obtain rfl := List.mem_singleton.1 hmem
        omega

/-- The calls fail at the offsets in turn, and then go on from the place that is reached. -/
theorem session (h : Passed text before rest offsets) (calls : Nat) :
    (Lexer.standing [] text).session (offsets.length + calls) =
      offsets.map (fun offset => .error (strayAt text offset)) ++
        (Lexer.standing before rest).session calls := by
  induction h generalizing calls with
  | start => simp
  | @stray before front rest c offsets hpassed hread hstray ih =>
    rw [List.length_append, List.length_singleton, Nat.add_assoc, Nat.add_comm 1, ih,
      Lexer.session, hread.tokenize_stray hstray, List.map_append, List.map_singleton,
      hpassed.strayAt_eq]
    exact List.append_cons _ _ _

/-- With blanks at the offsets, all that is passed is read, whatever is behind it, and the walk over
it leads to the same place. -/
theorem blanked (h : Passed text before rest offsets) :
    ∃ front, blankedAt offsets text = front ++ rest ∧ front.length = before.length ∧
      Location.after {} front = Location.behind before ∧ ∀ behind, Munches front behind := by
  induction h with
  | start => exact ⟨[], rfl, rfl, rfl, fun _ => .nil⟩
  | @stray before front rest c offsets _ hread hstray ih =>
    obtain ⟨passed, hblanked, hlength, hplace, hpassed⟩ := ih
    refine ⟨passed ++ front ++ [' '], ?_, by simp [hlength], ?_, fun behind => ?_⟩
    · have hset : blankedAt (offsets ++ [(before ++ front).length]) text =
          (blankedAt offsets text).set (before ++ front).length ' ' := List.foldl_append
      rw [hset, hblanked]
      simp [← hlength]
    · -- a blank takes one column, as the stray character does
      rw [Location.after_append, Location.after_append, hplace, Location.after_behind,
        Location.behind_append_singleton, Location.advance_of_ne hstray.ne_newline]
      exact Location.advance_of_ne (show ' ' ≠ '\n' by decide) _
    · have hfront := (hpassed _).trans (hread.before_blank (List.cons_ne_nil c rest) behind)
      exact hfront.append (.blank (.inl rfl))

/-- What is passed ends with the last fault, which takes one column. -/
theorem behind_last (h : Passed text before rest offsets) :
    ∀ offset ∈ offsets.getLast?,
      Location.behind before = ⟨(Location.behind (text.take offset)).line,
        (Location.behind (text.take offset)).column + 1⟩ := by
  cases h with
  | start => nofun
  | @stray before front _ c offsets hpassed _ hstray =>
    intro offset hoffset
    rw [List.getLast?_concat] at hoffset
    obtain rfl := Option.some.inj hoffset
    rw [hpassed.take_eq, Location.behind_append_singleton, Location.advance_of_ne hstray.ne_newline]

/-- The calls come to a place from where the text is read to its end, or up to a comment that is
never closed. -/
theorem exists_end (text : List Char) :
    ∃ before front rest offsets, Passed text before (front ++ rest) offsets ∧
      Munches front rest ∧
      (rest = [] ∨ ∃ body, rest = '/' :: '*' :: body ∧ ¬ ['*', '/'] <:+: body) := by
  suffices hfrom : ∀ before rest offsets, Passed text before rest offsets →
      ∃ before front rest offsets, Passed text before (front ++ rest) offsets ∧
        Munches front rest ∧
        (rest = [] ∨ ∃ body, rest = '/' :: '*' :: body ∧ ¬ ['*', '/'] <:+: body) from
    hfrom [] text [] .start
  -- a call that fails at a stray character leaves less to read
  intro before rest
  induction hn : rest.length using Nat.strongRecOn generalizing before rest with
  | ind n ih =>
    intro offsets hpassed
    obtain ⟨front, behind, rfl, hread, rfl | hhalts⟩ := Munches.exists_munches rest
    · exact ⟨before, front, [], offsets, hpassed, hread, .inl rfl⟩
    rcases hhalts.cases with ⟨c, later, rfl, hstray⟩ | hopen
    · refine ih later.length ?_ _ later rfl _ (hpassed.stray hread hstray)
      rw [← hn, List.length_append, List.length_cons]
      omega
    · exact ⟨before, front, behind, offsets, hpassed, hread, .inr hopen⟩

theorem before_eq_nil (h : Passed text before rest []) : before = [] := by
  generalize hoffsets : [] = offsets at h
  cases h with
  | start => rfl
  | stray => simp at hoffsets

/-- What is laid out behind the last fault starts behind it. -/
theorem startsBehind (h : Passed text before rest offsets)
    (hlaid : LaidOut (Location.behind before) rest tokens) :
    ∀ token ∈ tokens, StartsBehind text offsets token := by
  intro token htoken offset hoffset
  refine hlaid.before_of_mem ?_ token htoken
  rw [h.behind_last offset hoffset]
  exact .inr ⟨rfl, Nat.lt_succ_self _⟩

/-- A token that starts in what is passed does not start behind the last fault, which takes one
column only. -/
theorem not_startsBehind (h : Passed text before rest offsets) (hne : offsets ≠ []) {token : Token}
    (hbefore : token.location.Before (Location.behind before)) :
    ¬ StartsBehind text offsets token := by
  intro hstarts
  have hlast : offsets.getLast? = some (offsets.getLast hne) := List.getLast?_eq_some_getLast hne
  have hbehind := hstarts _ hlast
  rw [h.behind_last _ hlast] at hbefore
  unfold Location.Before at hbefore hbehind
  dsimp only at hbefore
  omega

/-- What is read behind the last fault are the tokens of the blanked text that start there. -/
theorem exists_all (h : Passed text before rest offsets) {lexer : Lexer}
    (hwalk : Lexer.walk (Location.behind before) (ofText rest) = (.ok tokens, lexer)) :
    ∃ all, (Lexer.walk {} (ofText (blankedAt offsets text))).1 = .ok all ∧
      tokens = all.filter (StartsBehind text offsets) := by
  have hbehind : tokens.filter (StartsBehind text offsets) = tokens := by
    rw [List.filter_eq_self]
    simpa using h.startsBehind (Lexer.laidOut_of_walk (congrArg Prod.fst hwalk))
  by_cases hne : offsets = []
  · -- without a fault the text is as it was
    subst hne
    obtain rfl := h.before_eq_nil
    obtain rfl := h.text_eq
    exact ⟨tokens, congrArg Prod.fst hwalk, hbehind.symm⟩
  · obtain ⟨front, hblanked, -, hplace, hmunches⟩ := h.blanked
    rw [← hplace] at hwalk
    obtain ⟨found, hfound, hall⟩ := (hmunches rest).walk_ok hwalk
    have hbefore : found.filter (StartsBehind text offsets) = [] := by
      rw [List.filter_eq_nil_iff]
      intro token htoken
      simpa using h.not_startsBehind hne (hplace ▸ hfound token htoken)
    rw [hblanked, hall]
    exact ⟨found ++ tokens, rfl, by rw [List.filter_append, hbefore, hbehind, List.nil_append]⟩

/-- A comment that is never closed is the same fault in the blanked text. -/
theorem blanked_open (h : Passed text before (front ++ '/' :: '*' :: rest) offsets)
    (hread : Munches front ('/' :: '*' :: rest)) (hopen : ¬ ['*', '/'] <:+: rest) :
    (Lexer.walk {} (ofText (blankedAt offsets text))).1 =
      .error ⟨.unterminatedComment, Location.behind (before ++ front)⟩ := by
  obtain ⟨passed, hblanked, -, hplace, hmunches⟩ := h.blanked
  have hend : Location.after {} (passed ++ front) = Location.behind (before ++ front) := by
    rw [Location.after_append, hplace, Location.after_behind]
  rw [hblanked, ← List.append_assoc, ((hmunches _).trans hread).walk_open hopen hend]

end Passed

/-! ## The last calls -/

/-- What is read to its end makes one call succeed, and leaves nothing to the calls after it. -/
theorem Munches.exists_session (h : Munches rest []) (before : List Char) :
    ∃ tokens lexer, Lexer.walk (Location.behind before) (ofText rest) = (.ok tokens, lexer) ∧
      ∀ calls, (Lexer.standing before rest).session (1 + calls) =
        .ok tokens :: List.replicate calls (.ok []) := by
  have hend (stop : Location) : Lexer.walk stop (ofText []) = (.ok [], ⟨[], stop⟩) := by
    rw [ofText_nil]
    rfl
  obtain ⟨tokens, -, hwalk⟩ := h.walk_ok (hend ((Location.behind before).after rest))
  rw [List.append_nil, List.append_nil] at hwalk
  have hcall : (Lexer.standing before rest).tokenize = _ := hwalk
  refine ⟨tokens, _, hwalk, fun calls => ?_⟩
  rw [Nat.add_comm, Lexer.session, hcall, Lexer.session_exhausted]

/-- A comment that is never closed makes one call fail, and leaves nothing to the calls after it. -/
theorem Munches.session_open (h : Munches front ('/' :: '*' :: rest))
    (hopen : ¬ ['*', '/'] <:+: rest) (before : List Char) (calls : Nat) :
    (Lexer.standing before (front ++ '/' :: '*' :: rest)).session (1 + calls) =
      .error ⟨.unterminatedComment, Location.behind (before ++ front)⟩ ::
        List.replicate calls (.ok []) := by
  have hcall : (Lexer.standing before (front ++ '/' :: '*' :: rest)).tokenize = _ :=
    h.walk_open hopen (Location.after_behind before front)
  rw [Nat.add_comm, Lexer.session, hcall, Lexer.standing, ofText_nil, Lexer.session_exhausted]

/-! ## The main theorem -/

end MiniC
