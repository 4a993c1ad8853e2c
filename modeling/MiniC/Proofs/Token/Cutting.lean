import MiniC.Token.Layout
import MiniC.Token.Lexeme

/-!
# What is cut off a text

`Lexeme.cut` takes one lexeme off a text by looking at its characters. This module says what it
takes off in the words that texts are described with: gaps, spellings, and characters that a token
runs into.

## The crux

Numbers and words end at the first character that does not belong to them, lines at the first
newline, comments at the first star with a slash. So each of them is found again exactly where a
text was put together that way, and what is found is always of that form.

## The architecture

* **`throughNewline_of_body`**, **`throughClose?_of_body`** say where lines and comments end, and
  `line_cases`, `throughClose?_eq_some`, `throughClose?_eq_none` that there is no other way.
* **`Spelled`** is `Token.WellFormed` as the characters show it (`Token.WellFormed.spelled`,
  `Token.wellFormed_of_spelled`).
* **`cut_of_spelled`** finds the text of a token; **`cut_fits`** reads off a lexeme what it is.
-/

namespace MiniC

namespace Lexeme

variable {c : Char} {cs body rest word : List Char} {kind : Token.Kind}

/-! ## Where lines and comments end -/

/-- Characters of a class are taken up to the first that is none. -/
theorem munch {p : Char → Bool} (rest : List Char) (hword : ∀ d ∈ word, p d = true)
    (hstop : ∀ d ∈ rest.head?, p d = false) :
    (word ++ rest).takeWhile p = word ∧ (word ++ rest).dropWhile p = rest := by
  rw [List.takeWhile_append_of_pos hword, List.dropWhile_append_of_pos hword]
  cases rest with
  | nil => simp
  | cons d rest => simp [hstop d rfl]

/-- What follows the characters of a class, if anything, is not of that class. -/
theorem head?_dropWhile {p : Char → Bool} {d : Char} (h : d ∈ (cs.dropWhile p).head?) :
    p d = false := by
  have hstop := List.head?_dropWhile_not p cs
  rw [Option.mem_def.1 h] at hstop
  exact hstop

theorem ne_newline_of_not_mem (h : '\n' ∉ body) : ∀ d ∈ body, (d != '\n') = true := by
  intro d hd
  rw [bne_iff_ne]
  rintro rfl
  exact h hd

theorem throughNewline_of_not_mem (h : '\n' ∉ cs) : throughNewline cs = (cs, []) := by
  have hmunch := munch [] (ne_newline_of_not_mem h) (by simp)
  rw [List.append_nil] at hmunch
  simp [throughNewline, hmunch.1, hmunch.2]

/-- A line goes up to its first newline and takes it along. -/
theorem throughNewline_of_body (h : '\n' ∉ body) :
    throughNewline (body ++ '\n' :: rest) = (body ++ ['\n'], rest) := by
  obtain ⟨htake, hdrop⟩ := munch ('\n' :: rest) (ne_newline_of_not_mem h) (by simp)
  unfold throughNewline
  rw [htake, hdrop]
  rfl

theorem throughNewline_cons_of_ne (h : c ≠ '\n') :
    throughNewline (c :: cs) = (c :: (throughNewline cs).1, (throughNewline cs).2) := by
  simp [throughNewline, h]

/-- A text has no newline, or it has a first one. -/
theorem line_cases (cs : List Char) :
    '\n' ∉ cs ∨ ∃ body rest, cs = body ++ '\n' :: rest ∧ '\n' ∉ body := by
  by_cases h : '\n' ∈ cs
  · exact .inr (List.eq_append_cons_of_mem h)
  · exact .inl h

/-- A comment ends at the first star that a slash follows. The body may end in a star of its own. -/
theorem throughClose?_of_body (h : ¬ ['*', '/'] <:+: body) :
    throughClose? (body ++ '*' :: '/' :: rest) = some (body ++ ['*', '/'], rest) := by
  induction body with
  | nil => simp [throughClose?]
  | cons d body ih =>
    rw [List.infix_cons_iff, not_or] at h
    obtain ⟨hhere, hlater⟩ := h
    obtain ⟨e, tail, htail⟩ : ∃ e tail, body ++ '*' :: '/' :: rest = e :: tail := by
      cases body <;> simp
    -- the two characters here do not close the comment: they lie in the body, or straddle its end
    have hopen : ¬ (d = '*' ∧ e = '/') := by
      rintro ⟨rfl, rfl⟩
      cases body with
      | nil => simp at htail
      | cons f body =>
        obtain rfl : f = '/' := by simpa using (List.cons.inj htail).1
        exact hhere ⟨body, rfl⟩
    rw [List.cons_append, htail, throughClose?, if_neg hopen, ← htail, ih hlater]
    rfl

/-- What was found in that way is a body in which nothing closes the comment, with the closing star
and slash behind it. -/
theorem throughClose?_eq_some {closed : List Char} (h : throughClose? cs = some (closed, rest)) :
    ∃ body, closed = body ++ ['*', '/'] ∧ ¬ ['*', '/'] <:+: body := by
  fun_induction throughClose? cs generalizing closed rest with
  | case1 => simp at h
  | case2 => simp at h
  | case3 d e cs hclose =>
    obtain ⟨rfl, rfl⟩ := hclose
    obtain ⟨rfl, rfl⟩ := Prod.mk.inj (Option.some.inj h)
    exact ⟨[], rfl, by simp⟩
  | case4 d e cs hopen ih =>
    obtain ⟨⟨closed', rest'⟩, hrec, hpair⟩ := Option.map_eq_some_iff.1 h
    obtain ⟨rfl, rfl⟩ := Prod.mk.inj hpair
    obtain ⟨body, rfl, hbody⟩ := ih hrec
    refine ⟨d :: body, rfl, ?_⟩
    rw [List.infix_cons_iff, not_or]
    refine ⟨?_, hbody⟩
    -- had the body started with the closing characters, they would have been taken at once
    have htext := throughClose?_append hrec
    rintro ⟨tail, htail⟩
    apply hopen
    cases body with
    | nil => simp at htail
    | cons f body =>
      simp only [List.cons_append, List.nil_append, List.cons.injEq] at htail htext
      exact ⟨htail.1.symm, htext.1.symm.trans htail.2.1.symm⟩

theorem throughClose?_eq_none (h : throughClose? cs = none) : ¬ ['*', '/'] <:+: cs := by
  rintro ⟨front, back, hcs⟩
  fun_induction throughClose? cs generalizing front with
  | case1 => simp at hcs
  | case2 d =>
    have hlength := congrArg List.length hcs
    simp at hlength
    omega
  | case3 => cases h
  | case4 d e cs hopen ih =>
    rw [Option.map_eq_none_iff] at h
    cases front with
    | nil =>
      simp only [List.nil_append, List.cons_append, List.cons.injEq] at hcs
      exact hopen ⟨hcs.1.symm, hcs.2.1.symm⟩
    | cons f front =>
      rw [List.cons_append, List.cons_append, List.cons.injEq] at hcs
      exact ih h front hcs.2

/-! ## Character classes

The classes that `cut` asks for in turn exclude one another, so it does not matter that it asks in
turn. -/

/-- The blanks of the language are these four characters. -/
theorem isBlank_iff : c.isWhitespace = true ↔ c = ' ' ∨ c = '\t' ∨ c = '\r' ∨ c = '\n' := by
  simp [Char.isWhitespace, or_assoc]

/-- The characters that a number or a word starts with open no gap. -/
theorem opensNoGap (h : c.isDigit = true ∨ startsWord c = true) :
    c.isWhitespace = false ∧ c ≠ '#' ∧ c ≠ '/' := by
  refine ⟨Bool.eq_false_iff.2 fun hblank => ?_, ?_, ?_⟩
  · rcases isBlank_iff.1 hblank with rfl | rfl | rfl | rfl <;> revert h <;> decide
  · rintro rfl
    revert h
    decide
  · rintro rfl
    revert h
    decide

/-- Numbers and words start with different characters. -/
theorem not_isDigit_of_startsWord (h : startsWord c = true) : c.isDigit = false := by
  refine Bool.eq_false_iff.2 fun hdigit => ?_
  have hle : c.toNat ≤ '9'.toNat := (Char.isDigit_iff_toNat.1 hdigit).2
  rcases Bool.or_eq_true_iff.1 h with hletter | hline
  · rcases Bool.or_eq_true_iff.1 hletter with hupper | hlower
    -- the digits come before all letters
    · have hge : 'A'.toNat ≤ c.toNat := UInt32.le_iff_toNat_le.1 (of_decide_eq_true hupper).1
      have hgap : '9'.toNat < 'A'.toNat := by decide
      omega
    · have hge : 'a'.toNat ≤ c.toNat :=
        UInt32.le_iff_toNat_le.1 (of_decide_eq_true (Bool.and_eq_true_iff.1 hlower).1)
      have hgap : '9'.toNat < 'a'.toNat := by decide
      omega
  · obtain rfl : c = '_' := by simpa using hline
    revert hdigit
    decide

theorem continuesWord_of_startsWord (h : startsWord c = true) : continuesWord c = true := by
  unfold startsWord at h
  unfold continuesWord Char.isAlphanum
  rcases Bool.or_eq_true_iff.1 h with h | h <;> simp [h]

/-- At a digit a number is cut off, with all the digits there are. -/
theorem cut_of_isDigit (h : c.isDigit = true) (cs : List Char) :
    cut c cs =
      (⟨.token .intLiteral, c :: cs.takeWhile Char.isDigit⟩, cs.dropWhile Char.isDigit) := by
  obtain ⟨hblank, hhash, hslash⟩ := opensNoGap (.inl h)
  simp [cut, hblank, hhash, hslash, h]

/-- At a letter or an underscore a word is cut off, with all that can continue it. -/
theorem cut_of_startsWord (h : startsWord c = true) (cs : List Char) :
    cut c cs = (⟨.token (wordKind (c :: cs.takeWhile continuesWord)),
      c :: cs.takeWhile continuesWord⟩, cs.dropWhile continuesWord) := by
  obtain ⟨hblank, hhash, hslash⟩ := opensNoGap (.inr h)
  simp [cut, hblank, hhash, hslash, not_isDigit_of_startsWord h, h]

/-- A sign of one character is cut off alone. The slash is left out here, for it may open a
comment. -/
theorem cut_of_punctuation (h : punctuation? c = some kind) (hkind : kind ≠ .slash)
    (cs : List Char) : cut c cs = (⟨.token kind, [c]⟩, cs) := by
  unfold punctuation? at h
  split at h <;> cases h <;> first | rfl | exact absurd rfl hkind

/-! ## Spellings -/

/-- The texts of a kind, as their characters show them. -/
inductive Spelled : Token.Kind → List Char → Prop where
  | number {c : Char} {cs : List Char} (hfirst : c.isDigit = true)
      (hall : ∀ d ∈ cs, d.isDigit = true) : Spelled .intLiteral (c :: cs)
  | word {c : Char} {cs : List Char} (hfirst : startsWord c = true)
      (hall : ∀ d ∈ cs, continuesWord d = true) : Spelled (wordKind (c :: cs)) (c :: cs)
  | punctuation {c : Char} {kind : Token.Kind} (hkind : punctuation? c = some kind) :
      Spelled kind [c]

/-- A word is one of the two keywords, or neither of them and an identifier. -/
theorem wordKind_cases (cs : List Char) :
    (cs = ['i', 'n', 't'] ∧ wordKind cs = .intKeyword) ∨
      (cs = ['r', 'e', 't', 'u', 'r', 'n'] ∧ wordKind cs = .returnKeyword) ∨
      (cs ≠ ['i', 'n', 't'] ∧ cs ≠ ['r', 'e', 't', 'u', 'r', 'n'] ∧
        wordKind cs = .identifier) := by
  unfold wordKind
  split
  · exact .inl ⟨‹_›, rfl⟩
  · split
    · exact .inr (.inl ⟨‹_›, rfl⟩)
    · exact .inr (.inr ⟨‹_›, ‹_›, rfl⟩)

end Lexeme

open Lexeme (Spelled startsWord continuesWord wordKind wordKind_cases punctuation?)

/-- The text of a well-formed token is a spelling of its kind. -/
theorem Token.WellFormed.spelled {token : Token} (h : token.WellFormed) :
    Spelled token.kind token.text.toList := by
  obtain ⟨kind, text, location⟩ := token
  cases kind with
  | intLiteral =>
    obtain ⟨hne, hall⟩ := h
    dsimp only at hne hall ⊢
    rw [Ne, ← String.toList_eq_nil_iff] at hne
    cases htext : text.toList with
    | nil => exact absurd htext hne
    | cons c cs =>
      rw [htext] at hall
      exact .number (hall c List.mem_cons_self) fun d hd => hall d (List.mem_cons_of_mem c hd)
  | identifier =>
    obtain ⟨⟨c, cs, htext, hfirst, hall⟩, hint, hreturn⟩ := h
    dsimp only at htext hint hreturn ⊢
    rw [htext]
    -- an identifier is any other word than the keywords
    have hkind : wordKind (c :: cs) = .identifier := by
      rcases wordKind_cases (c :: cs) with ⟨hcs, -⟩ | ⟨hcs, -⟩ | ⟨-, -, hkind⟩
      · exact absurd (String.toList_inj.1 (htext.trans (hcs.trans (by simp)))) hint
      · exact absurd (String.toList_inj.1 (htext.trans (hcs.trans (by simp)))) hreturn
      · exact hkind
    rw [← hkind]
    exact .word (by simpa [startsWord] using hfirst) (by simpa [continuesWord] using hall)
  | intKeyword =>
    obtain rfl := Option.some.inj h
    have hword : Spelled (wordKind ['i', 'n', 't']) ['i', 'n', 't'] :=
      .word (by decide) (List.all_eq_true.1 (by decide))
    rw [show wordKind ['i', 'n', 't'] = .intKeyword from by decide] at hword
    simpa using hword
  | returnKeyword =>
    obtain rfl := Option.some.inj h
    have hword : Spelled (wordKind ['r', 'e', 't', 'u', 'r', 'n'])
        ['r', 'e', 't', 'u', 'r', 'n'] :=
      .word (by decide) (List.all_eq_true.1 (by decide))
    rw [show wordKind ['r', 'e', 't', 'u', 'r', 'n'] = .returnKeyword from by decide] at hword
    simpa using hword
  | _ =>
    obtain rfl := Option.some.inj h
    simp only [String.toList]
    exact .punctuation rfl

/-- And a token whose text is a spelling of its kind is well formed. -/
theorem Token.wellFormed_of_spelled {token : Token} (h : Spelled token.kind token.text.toList) :
    token.WellFormed := by
  obtain ⟨kind, text, location⟩ := token
  dsimp only at h
  generalize htext : text.toList = characters at h
  cases h with
  | @number c cs hfirst hall =>
    refine ⟨?_, ?_⟩
    · rintro rfl
      cases htext
    · rw [htext]
      simpa using ⟨hfirst, hall⟩
  | @word c cs hfirst hall =>
    rcases wordKind_cases (c :: cs) with ⟨hcs, hkind⟩ | ⟨hcs, hkind⟩ | ⟨hint, hreturn, hkind⟩
    · obtain rfl : text = "int" := String.toList_inj.1 (by simp [htext, hcs])
      rw [hkind]
      rfl
    · obtain rfl : text = "return" := String.toList_inj.1 (by simp [htext, hcs])
      rw [hkind]
      rfl
    · rw [hkind]
      refine ⟨⟨c, cs, htext, by simpa [startsWord] using hfirst,
        by simpa [continuesWord] using hall⟩, ?_, ?_⟩
      · rintro rfl
        exact hint htext.symm
      · rintro rfl
        exact hreturn htext.symm
  | @punctuation c kind hkind =>
    unfold punctuation? at hkind
    split at hkind <;> cases hkind <;>
      exact congrArg some (String.toList_injective htext).symm

namespace Lexeme

variable {c d : Char} {cs rest word : List Char} {kind : Token.Kind}

/-- Keywords and identifiers alike run into whatever continues a word. -/
theorem runsInto_wordKind : (wordKind cs).RunsInto d ↔ continuesWord d = true := by
  have hcontinues : continuesWord d = true ↔ d.isAlphanum = true ∨ d = '_' := by
    simp [continuesWord]
  rcases wordKind_cases cs with ⟨-, hkind⟩ | ⟨-, hkind⟩ | ⟨-, -, hkind⟩ <;>
    rw [hkind, hcontinues] <;> rfl

/-- Of the signs of one character only the slash runs into anything: into what would open a
comment. -/
theorem runsInto_punctuation (h : punctuation? c = some kind) :
    kind.RunsInto d ↔ kind = .slash ∧ (d = '/' ∨ d = '*') := by
  unfold punctuation? at h
  split at h <;> cases h <;> simp [Token.Kind.RunsInto]

theorem punctuation?_eq_slash : punctuation? c = some .slash ↔ c = '/' := by
  constructor
  · intro h
    unfold punctuation? at h
    split at h <;> first | rfl | cases h
  · rintro rfl
    rfl

/-! ## One lexeme -/

/-- A slash that opens no comment is an operator. -/
theorem cutSlash_of_not_runsInto (hend : ∀ d ∈ rest.head?, ¬ (d = '/' ∨ d = '*')) :
    cutSlash rest = (⟨.token .slash, ['/']⟩, rest) := by
  unfold cutSlash
  split
  next => exact absurd (.inl rfl) (hend '/' rfl)
  next => exact absurd (.inr rfl) (hend '*' rfl)
  next => rfl

/-- The text of a token is cut off whole, unless it runs into what is behind it. -/
theorem cut_of_spelled (hword : Spelled kind word)
    (hend : ∀ d ∈ rest.head?, ¬ kind.RunsInto d) :
    ∃ c cs, word ++ rest = c :: cs ∧ cut c cs = (⟨.token kind, word⟩, rest) := by
  cases hword with
  | @number c cs hfirst hall =>
    obtain ⟨htake, hdrop⟩ := munch rest hall fun d hd =>
      Bool.eq_false_iff.2 (hend d hd)
    refine ⟨c, cs ++ rest, rfl, ?_⟩
    rw [cut_of_isDigit hfirst, htake, hdrop]
  | @word c cs hfirst hall =>
    obtain ⟨htake, hdrop⟩ := munch rest hall fun d hd => by
      simpa [runsInto_wordKind] using hend d hd
    refine ⟨c, cs ++ rest, rfl, ?_⟩
    rw [cut_of_startsWord hfirst, htake, hdrop]
  | @punctuation c kind hkind =>
    refine ⟨c, rest, rfl, ?_⟩
    -- of all signs only a slash depends on what is behind it
    by_cases hslash : kind = .slash
    · subst hslash
      obtain rfl := punctuation?_eq_slash.1 hkind
      exact cutSlash_of_not_runsInto fun d hd => hend d hd
    · exact cut_of_punctuation hkind hslash rest

theorem cut_blank (h : c.isWhitespace = true) (cs : List Char) :
    cut c cs = (⟨.skipped, [c]⟩, cs) := if_pos h

/-- A line comment is cut off with its newline. -/
theorem cut_lineComment {body : List Char} (h : '\n' ∉ body) (rest : List Char) :
    cut '/' ('/' :: body ++ '\n' :: rest) = (⟨.skipped, '/' :: '/' :: body ++ ['\n']⟩, rest) := by
  show cutSlash ('/' :: (body ++ '\n' :: rest)) = _
  simp [cutSlash, throughNewline_cons_of_ne, throughNewline_of_body h]

theorem cut_lastLineComment {body : List Char} (h : '\n' ∉ body) :
    cut '/' ('/' :: body) = (⟨.skipped, '/' :: '/' :: body⟩, []) := by
  show cutSlash ('/' :: body) = _
  simp [cutSlash, throughNewline_cons_of_ne, throughNewline_of_not_mem h]

theorem cut_directive {body : List Char} (h : '\n' ∉ body) (rest : List Char) :
    cut '#' (body ++ '\n' :: rest) = (⟨.skipped, '#' :: body ++ ['\n']⟩, rest) := by
  show (Lexeme.mk .skipped ('#' :: (throughNewline _).1), (throughNewline _).2) = _
  rw [throughNewline_of_body h]
  rfl

theorem cut_lastDirective {body : List Char} (h : '\n' ∉ body) :
    cut '#' body = (⟨.skipped, '#' :: body⟩, []) := by
  show (Lexeme.mk .skipped ('#' :: (throughNewline _).1), (throughNewline _).2) = _
  rw [throughNewline_of_not_mem h]

/-- A block comment is cut off up to where it is closed. -/
theorem cut_blockComment {body : List Char} (h : ¬ ['*', '/'] <:+: body) (rest : List Char) :
    cut '/' ('*' :: body ++ '*' :: '/' :: rest) =
      (⟨.skipped, '/' :: '*' :: body ++ ['*', '/']⟩, rest) := by
  show cutSlash ('*' :: (body ++ '*' :: '/' :: rest)) = _
  simp [cutSlash, throughClose?_of_body h]

/-- What a lexeme in front of a rest can be: a gap, which only the end of the text may cut off;
the text of a token that does not run into the rest; a character that no lexeme starts with; or a
comment that is not closed. -/
def Fits (lexeme : Lexeme) (rest : List Char) : Prop :=
  match lexeme.reading with
  | .skipped => Gap lexeme.text ∨ LastGap lexeme.text ∧ rest = []
  | .token kind => Spelled kind lexeme.text ∧ ∀ d ∈ rest.head?, ¬ kind.RunsInto d
  | .fault (.unexpectedChar c) =>
    lexeme.text = [c] ∧ c.isWhitespace = false ∧ c ≠ '#' ∧ c.isDigit = false ∧
      startsWord c = false ∧ punctuation? c = none
  | .fault .unterminatedComment =>
    ∃ body, lexeme.text = '/' :: '*' :: body ∧ (¬ ['*', '/'] <:+: body) ∧ rest = []
  | .fault (.other _) => False

/-- A line is skipped as a gap, or as the end of one. -/
theorem line_fits (opening : List Char)
    (hgap : ∀ body, '\n' ∉ body → Gap (opening ++ body ++ ['\n']))
    (hlast : ∀ body, '\n' ∉ body → LastGap (opening ++ body)) (cs : List Char) :
    Gap (opening ++ (throughNewline cs).1) ∨
      LastGap (opening ++ (throughNewline cs).1) ∧ (throughNewline cs).2 = [] := by
  rcases line_cases cs with h | ⟨body, rest, rfl, h⟩
  · rw [throughNewline_of_not_mem h]
    exact .inr ⟨hlast cs h, rfl⟩
  · rw [throughNewline_of_body h, ← List.append_assoc]
    exact .inl (hgap body h)

/-- What a slash opens fits: an operator that runs into nothing, a line, a comment that is closed,
or one that takes all the rest. -/
theorem cutSlash_fits (cs : List Char) : (cutSlash cs).1.Fits (cutSlash cs).2 := by
  unfold cutSlash
  split
  next cs =>
    rw [throughNewline_cons_of_ne (by decide)]
    exact line_fits ['/', '/'] (fun body h => by simpa using Gap.lineComment h .nil)
      (fun body h => .lineComment .nil h) cs
  next inside =>
    split
    next body rest hclose =>
      obtain ⟨body, rfl, hbody⟩ := throughClose?_eq_some hclose
      exact .inl (by simpa using Gap.blockComment hbody .nil)
    next hnone => exact ⟨inside, rfl, throughClose?_eq_none hnone, rfl⟩
  next hline hblock =>
    -- a character that the operator runs into would have opened a comment
    refine ⟨.punctuation rfl, fun d hd => ?_⟩
    cases cs with
    | nil => cases hd
    | cons e cs =>
      obtain rfl : e = d := Option.some.inj hd
      rintro (rfl | rfl)
      · exact hline cs rfl
      · exact hblock cs rfl

/-- **What is cut off a text fits.** -/
theorem cut_fits (c : Char) (cs : List Char) : (cut c cs).1.Fits (cut c cs).2 := by
  unfold cut
  by_cases hblank : c.isWhitespace = true
  · rw [if_pos hblank]
    exact .inl (.blank (isBlank_iff.1 hblank) .nil)
  rw [if_neg hblank]
  by_cases hhash : c = '#'
  · rw [if_pos hhash, hhash]
    exact line_fits ['#'] (fun body h => by simpa using Gap.directive h .nil)
      (fun body h => .directive .nil h) cs
  rw [if_neg hhash]
  by_cases hslash : c = '/'
  · rw [if_pos hslash]
    exact cutSlash_fits cs
  rw [if_neg hslash]
  by_cases hdigit : c.isDigit = true
  · rw [if_pos hdigit]
    refine ⟨.number hdigit (List.all_eq_true.1 List.all_takeWhile), fun d hd => ?_⟩
    exact Bool.eq_false_iff.1 (head?_dropWhile hd)
  rw [if_neg hdigit]
  by_cases hword : startsWord c = true
  · rw [if_pos hword]
    refine ⟨.word hword (List.all_eq_true.1 List.all_takeWhile), fun d hd => ?_⟩
    rw [runsInto_wordKind]
    exact Bool.eq_false_iff.1 (head?_dropWhile hd)
  rw [if_neg hword]
  cases hkind : punctuation? c with
  | some kind =>
    refine ⟨.punctuation hkind, fun d _ => ?_⟩
    rw [runsInto_punctuation hkind]
    -- the slash was taken care of above
    rintro ⟨rfl, -⟩
    exact hslash (punctuation?_eq_slash.1 hkind)
  | none =>
    exact ⟨rfl, by simpa using hblank, hhash, by simpa using hdigit, by simpa using hword, hkind⟩

end Lexeme

end MiniC
