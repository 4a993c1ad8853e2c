import MiniC.Grammar.Printed
import MiniC.Parse.Source
import MiniC.Proofs.Grammar.Dialects
import MiniC.Proofs.Grammar.Language
import MiniC.Proofs.Parse.Threshold
import MiniC.Proofs.Token.Tokenizing

/-!
# Printing an expression and reading it back

The printed form of an expression, in a program of its own, is read as that expression again, up to
places. The lexer finds the tokens that were printed, for no two of them run into one another; the
tokens are a written factor, so both grammars derive them; and the frames of that derivation are the
limits under which the parser gets through. Only a subtraction is lost on the legacy dialect.

## The architecture

* **`laidOut_written`** lays out the printed text as the tokens of the written factor.
* **`tokenize_source`** puts the program around it.
* **`source_threshold`** reads it back under the caps that admit its frames, and
  **`legacy_refuses_source`** is the subtraction.
* **`unplaced_eq_of_text_eq`** follows: one text is read in one way.
-/

namespace MiniC

open Grammar (Derives DerivesProgram Written)

variable {start : Location} {rest text : List Char} {later tokens : List Token} {e : Expr}
  {name : String} {dialect : Dialect} {cap : Option Nat} {strict : Bool}

/-! ## Laying out a text from its end -/

namespace LaidOut

/-- A word goes in front of what it does not run into. -/
theorem word (kind : Token.Kind) (text : String) (hword : Token.WellFormed { kind, text })
    (hend : ∀ c ∈ rest.head?, ¬ kind.RunsInto c)
    (hrest : LaidOut (start.after text.toList) rest later) :
    LaidOut start (text.toList ++ rest) (⟨kind, text, start⟩ :: later) :=
  @LaidOut.token start [] rest ⟨kind, text, start⟩ later .nil hword rfl hend hrest

/-- A blank goes in front of anything. -/
theorem blank (h : LaidOut (start.after [' ']) text tokens) :
    LaidOut start (' ' :: text) tokens :=
  Lexer.laidOut_of_gap (.blank (.inl rfl) .nil) h

/-- In front of a blank any word may stand. -/
theorem wordBlank (kind : Token.Kind) (text : String) (hword : Token.WellFormed { kind, text })
    (hrest : LaidOut ((start.after text.toList).after [' ']) rest later) :
    LaidOut start (text.toList ++ ' ' :: rest) (⟨kind, text, start⟩ :: later) := by
  refine word kind text hword (fun c hc => ?_) (blank hrest)
  obtain rfl : ' ' = c := Option.some.inj hc
  cases kind <;> simp +decide [Token.Kind.RunsInto]

/-- A sign of one character that runs into nothing may stand in front of anything. -/
theorem sign (kind : Token.Kind) (text : String) (c : Char) (htext : text.toList = [c])
    (hword : Token.WellFormed { kind, text }) (hfree : ∀ d, ¬ kind.RunsInto d)
    (hrest : LaidOut (start.after [c]) rest later) :
    LaidOut start (c :: rest) (⟨kind, text, start⟩ :: later) := by
  rw [← htext] at hrest
  have hlaid := word kind text hword (fun d _ => hfree d) hrest
  rw [htext] at hlaid
  exact hlaid

end LaidOut

/-! ## The printed expression -/

theorem UnaryOp.wellFormed (op : UnaryOp) :
    Token.WellFormed { kind := op.kind, text := op.sign } := by
  cases op <;> rfl

theorem BinaryOp.wellFormed (op : BinaryOp) :
    Token.WellFormed { kind := op.kind, text := op.sign } := by
  cases op <;> rfl

/-- What is printed behind a literal is no digit. -/
theorem head?_of_not_isDigit {c : Char} (hc : c.isDigit = false) (cs : List Char) :
    ∀ d ∈ (c :: cs).head?, d.isDigit = false := by
  intro d hd
  obtain rfl : c = d := Option.some.inj hd
  exact hc

/-- **The printed text is laid out as the tokens of the printed factor**, if no digit follows. -/
theorem laidOut_written (he : e.Numeric) (hend : ∀ c ∈ rest.head?, c.isDigit = false)
    (hrest : LaidOut (start.after e.text.toList) rest later) :
    LaidOut start (e.text.toList ++ rest) ((e.written start).tokens ++ later) := by
  induction e generalizing start rest later with
  | literal text location =>
    exact .word .intLiteral text he (fun c hc => by simp [Token.Kind.RunsInto, hend c hc]) hrest
  | unary op operand location ih =>
    rw [Expr.text, String.toList_append, Location.after_append] at hrest
    rw [Expr.text, String.toList_append, List.append_assoc]
    refine .word op.kind op.sign op.wellFormed (fun c _ => ?_) (ih he hend hrest)
    cases op <;> exact not_false
  | binary op left right location ihl ihr =>
    obtain ⟨hleft, hright⟩ := he
    rw [Expr.toList_text_binary] at hrest ⊢
    simp only [Location.after_cons, Location.after_append] at hrest
    simp only [Expr.written, Written.tokens, Written.tokens_binary, List.cons_append,
      List.append_assoc, List.nil_append]
    -- from the closing parenthesis back to the opening one
    have hclose := LaidOut.sign .closeParen ")" ')' rfl rfl (fun _ => not_false) hrest
    have hoperand := ihr hright (head?_of_not_isDigit rfl _) hclose
    have hsign := LaidOut.wordBlank op.kind op.sign op.wellFormed hoperand
    exact .sign .openParen "(" '(' rfl rfl (fun _ => not_false)
      (ihl hleft (head?_of_not_isDigit rfl _) hsign.blank)

/-! ## The printed program -/

/-- The printed program as a row of words and blanks, as it is going to be laid out. -/
theorem Expr.toList_source (name : String) (e : Expr) :
    (e.source name).toList = "int".toList ++ ' ' :: (name.toList ++ '(' :: (")".toList ++
      ' ' :: ("\x7b".toList ++ ' ' :: ("return".toList ++ ' ' :: (e.text.toList ++
        ';' :: ' ' :: ['\x7d']))))) := by
  simp [source]

/-- The printed program is read as a header, the tokens of the printed factor, and a tail. -/
theorem tokenize_source (hname : Token.WellFormed { kind := .identifier, text := name })
    (he : e.Numeric) :
    ∃ start tokens, tokenize (e.source name) = .ok tokens ∧
      ∀ {dialect tree frames}, Derives dialect .factor (e.written start).tokens tree frames →
        ∃ program, DerivesProgram dialect tokens program (1 + frames) ∧
          program.function.name = name ∧ program.returned = tree := by
  have hlaid : LaidOut {} _ _ :=
    .wordBlank .intKeyword "int" rfl <|
    .word .identifier name hname (by simp +decide [Token.Kind.RunsInto]) <|
    .sign .openParen "(" '(' rfl rfl (fun _ => not_false) <|
    .wordBlank .closeParen ")" rfl <| .wordBlank .openBrace "\x7b" rfl <|
    .wordBlank .returnKeyword "return" rfl <| laidOut_written he (head?_of_not_isDigit rfl _) <|
    .sign .semicolon ";" ';' rfl rfl (fun _ => not_false) <| .blank <|
    .sign .closeBrace "\x7d" '\x7d' rfl rfl (fun _ => not_false) <| .last (.gap .nil)
  have hread := Lexer.walk_of_laidOut hlaid
  rw [← Expr.toList_source] at hread
  exact ⟨_, _, hread, fun hderives =>
    ⟨_, .program rfl rfl rfl rfl rfl rfl (.term (.factor hderives)) rfl rfl, rfl, rfl⟩⟩

/-- Both grammars derive the printed program, the legacy one unless it subtracts. -/
theorem derives_source (hname : Token.WellFormed { kind := .identifier, text := name })
    (he : e.Numeric) :
    ∃ tokens, tokenize (e.source name) = .ok tokens ∧
      ∀ dialect, (dialect = .legacy → ¬ e.Subtracts) →
        ∃ program, DerivesProgram dialect tokens program (1 + e.frames dialect) ∧
          program.function.name = name ∧ program.returned.unplaced = e.unplaced := by
  obtain ⟨start, tokens, hread, hprogram⟩ := tokenize_source hname he
  refine ⟨tokens, hread, fun dialect hsubtracts => ?_⟩
  cases dialect with
  | standard =>
    obtain ⟨program, hderives, hname, hreturned⟩ := hprogram (e.written start).derives_standard
    rw [Expr.frames_written] at hderives
    exact ⟨program, hderives, hname, by rw [hreturned, Expr.unplaced_written]⟩
  | legacy =>
    have hnone := mt (Expr.subtracts_written .right start e).1 (hsubtracts rfl)
    obtain ⟨program, hderives, hname, hreturned⟩ := hprogram (Written.derives_legacy hnone)
    rw [Expr.frames_written] at hderives
    exact ⟨program, hderives, hname, by rw [hreturned, Expr.unplaced_written]⟩

/-! ## Reading it back -/

/-- The result is a program of this name that returns the expression, up to places. -/
def Returns (name : String) (e : Expr) (result : Except SourceError Program) : Prop :=
  ∃ program, result = .ok program ∧ program.function.name = name ∧
    program.returned.unplaced = e.unplaced

theorem Returns.ne_error {error : SourceError} {result : Except SourceError Program}
    (h : Returns name e result) : result ≠ .error error := by
  obtain ⟨program, hprogram, -⟩ := h
  rw [hprogram]
  exact nofun

/-- A result returns one expression only, up to places. -/
theorem Returns.unplaced_eq {other : Expr} {result : Except SourceError Program}
    (h : Returns name e result) (hother : Returns name other result) :
    e.unplaced = other.unplaced := by
  obtain ⟨program, hprogram, -, hreturned⟩ := h
  obtain ⟨program', hprogram', -, hreturned'⟩ := hother
  obtain rfl := Except.ok.inj (hprogram.symm.trans hprogram')
  exact hreturned.symm.trans hreturned'

theorem parseSource_of_tokenize {source : String} (h : tokenize source = .ok tokens) :
    parseSource { dialect, maxDepth := cap, strict } source =
      (Parser.parseUnder { dialect, strict } tokens cap).1.mapError .parse :=
  parseSource_of_tokens h

section Source

variable (hname : Token.WellFormed { kind := .identifier, text := name }) (he : e.Numeric)

include hname he

/-- Without a cap the printed expression is read back, and with a cap from as many levels on as it
nests; below that the cap is what is reported. -/
theorem source_threshold (dialect : Dialect) (strict : Bool)
    (hsubtracts : dialect = .legacy → ¬ e.Subtracts) :
    Returns name e (parseSource { dialect, maxDepth := none, strict } (e.source name)) ∧
      ∀ limit,
        (1 + e.frames dialect ≤ limit → Returns name e
          (parseSource { dialect, maxDepth := some limit, strict } (e.source name))) ∧
        (limit < 1 + e.frames dialect → ∃ location,
          parseSource { dialect, maxDepth := some limit, strict } (e.source name) =
            .error (.parse (.tooDeep limit location))) := by
  obtain ⟨tokens, hread, hall⟩ := derives_source hname he
  obtain ⟨program, hderives, hfunction, hreturned⟩ := hall dialect hsubtracts
  obtain ⟨hnone, hnesting⟩ := @Parser.nesting_of_derives { dialect, strict } _ _ _ hderives
  rw [parseSource_of_tokenize hread, ← hnesting]
  refine ⟨⟨program, by rw [hnone]; rfl, hfunction, hreturned⟩, fun limit => ?_⟩
  rw [parseSource_of_tokenize hread]
  refine ⟨fun hle => ?_, fun hlt => ?_⟩
  · obtain ⟨hsame, -⟩ := Parser.parseUnder_of_nesting_le hle
    exact ⟨program, by rw [hsame, hnone]; rfl, hfunction, hreturned⟩
  · obtain ⟨location, hdeep⟩ := Parser.parseUnder_of_lt_nesting hlt
    exact ⟨location, by rw [hdeep]; rfl⟩

/-- The legacy dialect refuses a subtraction, whatever the cap. -/
theorem legacy_refuses_source (hsubtracts : e.Subtracts) (cap : Option Nat) (strict : Bool) :
    ∃ error, parseSource { dialect := .legacy, maxDepth := cap, strict } (e.source name) =
      .error error := by
  obtain ⟨tokens, hread, hall⟩ := derives_source hname he
  obtain ⟨program, hderives, -, hreturned⟩ := hall .standard nofun
  rw [parseSource_of_tokenize hread]
  cases hparse : (Parser.parseUnder { dialect := .legacy, strict } tokens cap).1 with
  | error error => exact ⟨_, rfl⟩
  | ok accepted =>
    -- the standard dialect would read a tree without a subtraction, but the tree is known
    obtain ⟨other, hother, hnone⟩ := Parser.exists_standard_not_subtracts hparse
    obtain ⟨hle, -, frames, hderives', -⟩ := Parser.parseProgram_ok_iff.1 ⟨hother, rfl⟩
    rw [← tokens.take_length] at hderives
    have hsame : (_, other) = (tokens.length, program) :=
      Grammar.derivesProgram_subsingleton .standard tokens ⟨hle, frames, hderives'⟩
        ⟨Nat.le_refl _, _, hderives⟩
    obtain rfl : other = program := congrArg Prod.snd hsame
    rw [Expr.Subtracts, ← Expr.marks_unplaced, hreturned, Expr.marks_unplaced] at hnone
    exact absurd hsubtracts hnone

/-- What is printed alike is equal up to places, for it is read back from one text. -/
theorem unplaced_eq_of_text_eq {other : Expr} (hother : other.Numeric)
    (htext : other.text = e.text) : other.unplaced = e.unplaced := by
  have hsource : other.source name = e.source name := by rw [Expr.source, htext, Expr.source]
  obtain ⟨hreturns, -⟩ := source_threshold hname he .standard false nofun
  obtain ⟨hreturns', -⟩ := source_threshold hname hother .standard false nofun
  rw [hsource] at hreturns'
  exact hreturns'.unplaced_eq hreturns

end Source

/-- **A printed expression is read back.** In the standard dialect always, in the legacy dialect if
it does not subtract; under a cap if the cap admits the levels that its printed form takes, and else
that cap is reported. So no two expressions are printed alike, but for places. -/
theorem parseSource_source (name : String) (e : Expr) (strict : Bool)
    (hname : Token.WellFormed { kind := .identifier, text := name }) (he : e.Numeric) :
    let parse := fun dialect maxDepth =>
      parseSource { dialect, maxDepth, strict } (e.source name)
    Returns name e (parse .standard none) ∧
    (Returns name e (parse .legacy none) ↔ ¬ e.Subtracts) ∧
    (e.Subtracts → ∀ cap, ∃ error, parse .legacy cap = .error error) ∧
    (∀ dialect limit, (dialect = .legacy → ¬ e.Subtracts) →
      (Returns name e (parse dialect (some limit)) ↔ 1 + e.frames dialect ≤ limit) ∧
      (limit < 1 + e.frames dialect → ∃ location,
        parse dialect (some limit) = .error (.parse (.tooDeep limit location)))) ∧
    ∀ other : Expr, other.Numeric → other.text = e.text → other.unplaced = e.unplaced := by
  intro parse
  have hrefuses (hsubtracts : e.Subtracts) := legacy_refuses_source hname he hsubtracts
  refine ⟨(source_threshold hname he .standard strict nofun).1, ⟨?_, fun hnone =>
    (source_threshold hname he .legacy strict fun _ => hnone).1⟩, fun hsubtracts cap =>
    hrefuses hsubtracts cap strict, fun dialect limit hnone => ?_,
    fun other => unplaced_eq_of_text_eq hname he⟩
  · intro hreturns hsubtracts
    obtain ⟨error, herror⟩ := hrefuses hsubtracts none strict
    exact hreturns.ne_error herror
  · obtain ⟨hle, hlt⟩ := (source_threshold hname he dialect strict hnone).2 limit
    refine ⟨⟨fun hreturns => Nat.not_lt.1 fun hshort => ?_, hle⟩, hlt⟩
    obtain ⟨location, hdeep⟩ := hlt hshort
    exact hreturns.ne_error hdeep

/-- A sign before a difference, a product in parentheses as its right operand: eight levels. -/
theorem parseSource_source_difference :
    let e : Expr := .unary .negate (.binary .subtract (.literal "10" {})
      (.binary .multiply (.unary .not (.literal "2" {}) {}) (.literal "007" {}) {}) {}) {}
    e.source "main" = "int main() \x7b return -(10 - (!2 * 007)); \x7d" ∧
      e.Numeric ∧ e.Subtracts ∧ e.frames .standard = 7 ∧
      Returns "main" e (parseSource { maxDepth := none } (e.source "main")) ∧
      Returns "main" e (parseSource { maxDepth := some 8 } (e.source "main")) ∧
      ∃ location, parseSource { maxDepth := some 7 } (e.source "main") =
        .error (.parse (.tooDeep 7 location)) := by
  intro e
  have hname : Token.WellFormed { kind := .identifier, text := "main" } :=
    ⟨⟨'m', ['a', 'i', 'n'], rfl, by decide, by simp⟩, by decide, by decide⟩
  have he : e.Numeric :=
    ⟨⟨by decide, by simp⟩, ⟨by decide, by simp⟩, ⟨by decide, by simp⟩⟩
  obtain ⟨hnone, -, -, hlimit, -⟩ := parseSource_source "main" e false hname he
  refine ⟨rfl, he, by decide, rfl, hnone, (hlimit .standard 8 nofun).1.2 (by decide),
    (hlimit .standard 7 nofun).2 (by decide)⟩

end MiniC
