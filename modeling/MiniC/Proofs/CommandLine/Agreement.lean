import MiniC.CommandLine.Report
import MiniC.Proofs.Grammar.Language
import MiniC.Proofs.Token.Faithful
import MiniC.Proofs.Parse.Prefix

/-!
# The command line and the library agree

A run of the command line goes through the two stages by itself, with a line of progress before
each. What it reports is nevertheless what the library makes of the text: the outline of the tree
that `parseSource` yields, or the message of its error, and never a part of a tree.

## The architecture

* **`Reports`** spells out the report that belongs to each result of the library.
* **`consumes_all_iff`** says what the number of consumed tokens tells about strict mode, and
  **`parsedLine_isLastLine`** that the line with that number is the last one.
* **`reports_processSource`** compares the two ways through the stages, and **`run_agrees`** adds
  the arguments and the file.
-/

namespace MiniC

variable {settings : Settings} {tokens : List Token} {source : String} {program : Program}

namespace Parser

/-- All tokens are consumed exactly if strict mode has nothing to object to. -/
theorem consumes_all_iff (hok : parseTokens settings tokens = .ok program) :
    (ofTokens settings tokens).parseProgram.2.position = tokens.length ↔
      ∃ other, parseTokens settings.withTrailingTokensRefused tokens = .ok other := by
  constructor
  · intro hall
    obtain ⟨hle, -, hderives⟩ := parseProgram_ok_iff.1 ⟨hok, hall⟩
    have hstrict :
        (ofTokens settings.withTrailingTokensRefused tokens).parseProgram.1 = .ok program ∧ _ :=
      parseProgram_ok_iff.2 ⟨hle, fun _ => rfl, hderives⟩
    exact ⟨program, hstrict.1⟩
  · rintro ⟨other, hother⟩
    obtain ⟨hle, hwhole, hderives⟩ := parseProgram_ok_iff.1 ⟨hother, rfl⟩
    rw [hwhole rfl] at hle hderives
    have hsame : (ofTokens settings tokens).parseProgram.1 = .ok other ∧ _ :=
      parseProgram_ok_iff.2 ⟨hle, fun _ => rfl, hderives⟩
    exact hsame.2

end Parser

/-! ## The name of a function -/

theorem newline_not_mem_of_identifier {token : Token} (h : token.WellFormed)
    (hkind : token.kind = .identifier) : '\n' ∉ token.text.toList := by
  unfold Token.WellFormed at h
  rw [hkind] at h
  obtain ⟨⟨c, cs, htext, hfirst, hlater⟩, -⟩ := h
  have hnewline : ¬ (('\n').isAlpha = true ∨ '\n' = '_') := by decide
  have hnewline' : ¬ (('\n').isAlphanum = true ∨ '\n' = '_') := by decide
  rw [htext, List.mem_cons, not_or]
  constructor
  · rintro rfl
    exact hnewline hfirst
  · intro hmem
    exact hnewline' (hlater '\n' hmem)

/-- A name that comes out of a text is one word. -/
theorem newline_not_mem_name (htokens : tokenize source = .ok tokens)
    (hok : parseTokens settings tokens = .ok program) :
    '\n' ∉ program.function.name.toList := by
  have hlaid : LaidOut (Location.behind []) source.toList tokens := by
    rw [Location.behind_nil, ← Lexer.walk_eq_ok_iff]
    exact htokens
  obtain ⟨-, -, frames, hderives, -⟩ := Parser.parseProgram_ok_iff.1 ⟨hok, rfl⟩
  obtain ⟨name, hmem, hkind, hname⟩ := hderives.exists_name
  obtain ⟨hwellFormed, -⟩ := hlaid.stands rfl name (List.mem_of_mem_take hmem)
  rw [hname]
  exact newline_not_mem_of_identifier hwellFormed hkind

namespace CommandLine

/-! ## The lines of a report -/

def lexingLine (file : String) : String := "Lexing " ++ file ++ "...\n"

def parsingLine (settings : Settings) (tokens : List Token) : String :=
  "Parsing " ++ toString tokens.length ++ " tokens (" ++ settings.dialect.name ++ " dialect)...\n"

def parsedLine (program : Program) (position : Nat) (tokens : List Token) : String :=
  "Parsed successfully. Function '" ++ program.function.name ++ "' consumed " ++
    (toString position ++ " of " ++ toString tokens.length ++ " tokens.\n")

/-- The text has several lines, and this is the last one. -/
def IsLastLine (line text : String) : Prop :=
  ∃ before words, text = before ++ "\n" ++ line ∧ line = words ++ "\n" ∧ '\n' ∉ words.toList

/-- The report that belongs to what the library makes of a text. -/
def Reports (file : String) (settings : Settings) (source : String) (report : Report) :
    Except SourceError Program → Prop
  | .ok program =>
    ∃ tokens, tokenize source = .ok tokens ∧
      let position := (Parser.ofTokens settings tokens).parseProgram.2.position
      let line := parsedLine program position tokens
      report = { exit := 0, stdout := program.outline,
                 stderr := lexingLine file ++ parsingLine settings tokens ++ line } ∧
      IsLastLine line report.stderr ∧ position ≤ tokens.length ∧
      (position = tokens.length ↔
        ∃ other, parseSource settings.withTrailingTokensRefused source = .ok other)
  | .error (.lex error) =>
    report = { exit := 1, stdout := "",
               stderr := lexingLine file ++ (SourceError.lex error).message ++ "\n" }
  | .error (.parse error) =>
    ∃ tokens, tokenize source = .ok tokens ∧
      report = { exit := 1, stdout := "",
                 stderr := lexingLine file ++ parsingLine settings tokens ++
                   (SourceError.parse error).message ++ "\n" }

theorem newline_not_mem_toDigits (n : Nat) : '\n' ∉ Nat.toDigits 10 n := by
  intro hmem
  have hdigit : ('\n').isDigit = true :=
    Nat.isDigit_of_mem_toDigits (by decide) (by decide) hmem
  revert hdigit
  decide

/-- A line is ended by its newline, whatever it begins with. -/
theorem append_newline {text line words : String} (h : line = words ++ "\n") :
    text ++ line = text ++ words ++ "\n" := by
  rw [h, String.append_assoc]

/-- The name of the function and the numbers are all that the line shows besides fixed words, so it
is one line. -/
theorem parsedLine_isLastLine (htokens : tokenize source = .ok tokens)
    (hok : parseTokens settings tokens = .ok program) (position : Nat) (before : String) :
    IsLastLine (parsedLine program position tokens)
      (before ++ parsingLine settings tokens ++ parsedLine program position tokens) := by
  have hname := newline_not_mem_name htokens hok
  -- both lines end in a newline, and this one has no other
  have hparsing : parsingLine settings tokens = _ ++ "\n" :=
    append_newline (show " dialect)...\n" = " dialect)..." ++ "\n" from rfl)
  have hparsed : parsedLine program position tokens = _ ++ "\n" :=
    append_newline (append_newline (show " tokens.\n" = " tokens." ++ "\n" from rfl))
  refine ⟨_, _, congrArg (· ++ _) (append_newline hparsing), hparsed, ?_⟩
  simp [hname, newline_not_mem_toDigits]

/-! ## The two ways through the stages -/

/-- A fault of the lexer is reported behind the line of the first stage. -/
theorem processSource_of_fault {error : LexError} (file : String) (settings : Settings)
    (h : tokenize source = .error error) : processSource file settings source =
      { exit := 1, stdout := "", stderr := lexingLine file ++ error.message ++ "\n" } := by
  rw [processSource, h]
  rfl

/-- What the parser makes of the tokens is reported behind the lines of both stages. -/
theorem processSource_of_tokens (file : String) (settings : Settings)
    (h : tokenize source = .ok tokens) : processSource file settings source =
      match parseTokens settings tokens with
      | .error error =>
        { exit := 1, stdout := "",
          stderr := lexingLine file ++ parsingLine settings tokens ++ error.message ++ "\n" }
      | .ok program =>
        { exit := 0, stdout := program.outline,
          stderr := lexingLine file ++ parsingLine settings tokens ++ parsedLine program
            (Parser.ofTokens settings tokens).parseProgram.2.position tokens } := by
  rw [processSource, h, parseTokens]
  dsimp only
  generalize (Parser.ofTokens settings tokens).parseProgram = outcome
  obtain ⟨result, parser⟩ := outcome
  cases result <;> rfl

/-- **The stages of a run report what the library makes of the text.** -/
theorem reports_processSource (file : String) (settings : Settings) (source : String) :
    Reports file settings source (processSource file settings source)
      (parseSource settings source) := by
  cases htokens : tokenize source with
  | error error =>
    rw [parseSource_of_fault htokens]
    exact processSource_of_fault file settings htokens
  | ok tokens =>
    rw [parseSource_of_tokens htokens, processSource_of_tokens file settings htokens]
    cases hparse : parseTokens settings tokens with
    | error error => exact ⟨tokens, htokens, rfl⟩
    | ok program =>
      refine ⟨tokens, htokens, rfl, parsedLine_isLastLine htokens hparse _ _,
        Parser.position_outcome_le settings tokens, ?_⟩
      rw [Parser.consumes_all_iff hparse, parseSource_of_tokens htokens]
      cases parseTokens settings.withTrailingTokensRefused tokens with
      | ok other => simp [Except.mapError]
      | error error => simp [Except.mapError]

/-- The exit status tells whether there is a tree, and only then anything is on standard output. -/
theorem Reports.streams {file : String} {report : Report} {result : Except SourceError Program}
    (h : Reports file settings source report result) :
    (∃ program, result = .ok program ∧ report.exit = 0 ∧ report.stdout = program.outline) ∨
    (∃ error, result = .error error ∧ report.exit = 1 ∧ report.stdout = "") := by
  match result with
  | .ok program =>
    obtain ⟨tokens, -, hreport, -⟩ := h
    rw [hreport]
    exact .inl ⟨program, rfl, rfl, rfl⟩
  | .error (.lex error) =>
    rw [show report = _ from h]
    exact .inr ⟨.lex error, rfl, rfl, rfl⟩
  | .error (.parse error) =>
    obtain ⟨tokens, -, hreport⟩ := h
    rw [hreport]
    exact .inr ⟨.parse error, rfl, rfl, rfl⟩

/-! ## From the arguments -/

/-- A text survives being stored as bytes. -/
theorem fromUTF8?_toUTF8 (text : String) : String.fromUTF8? text.toUTF8 = some text := by
  rw [String.toUTF8_eq_toByteArray, String.fromUTF8?, dif_pos text.isValidUTF8]
  rfl

/-- With the settings and the file of its arguments, a run is the two stages on the text of that
file. -/
theorem run_of_file (program : String) {arguments : List String} {file : String}
    {lookup : String → FileEntry} (hscan : Options.scan arguments = .ok ⟨settings, some file⟩)
    (hfile : lookup file = .file source.toUTF8) :
    run program arguments lookup = processSource file settings source := by
  rw [run, plan, hscan]
  dsimp only
  rw [hfile, process, fromUTF8?_toUTF8]

/-- **The command line and the library agree.** Whatever the arguments say about settings, a run on
a file reports what `parseSource` makes of its text, and prints the whole outline or nothing. -/
theorem run_agrees (program : String) {arguments : List String} {file : String}
    {lookup : String → FileEntry} (hscan : Options.scan arguments = .ok ⟨settings, some file⟩)
    (hfile : lookup file = .file source.toUTF8) :
    let report := run program arguments lookup
    let result := parseSource settings source
    (report.exit = 0 ↔ ∃ tree, result = .ok tree) ∧
    Reports file settings source report result ∧
    (report.stdout ≠ "" → ∃ tree, result = .ok tree ∧ report.stdout = tree.outline) := by
  intro report result
  have hreports : Reports file settings source report result := by
    rw [show report = _ from run_of_file program hscan hfile]
    exact reports_processSource file settings source
  rcases hreports.streams with ⟨tree, hok, hexit, hstdout⟩ | ⟨error, herror, hexit, hstdout⟩
  · exact ⟨⟨fun _ => ⟨tree, hok⟩, fun _ => hexit⟩, hreports, fun _ => ⟨tree, hok, hstdout⟩⟩
  · rw [hexit, hstdout, herror]
    refine ⟨⟨nofun, ?_⟩, ?_, fun hne => absurd rfl hne⟩
    · rintro ⟨tree, hok⟩
      cases hok
    · rw [← herror]
      exact hreports

/-- A function with a token behind it, which nobody has asked to refuse. -/
theorem run_agrees_trailing :
    let source := "int f(){return 2;};"
    let settings : Settings := { dialect := .legacy, maxDepth := some 8 }
    let lookup : String → FileEntry := fun _ => .file source.toUTF8
    let report := run "retc" ["--legacy", "--max-depth", "+8", "main.c"] lookup
    ∃ tree, parseSource settings source = .ok tree ∧ report.exit = 0 ∧
      Reports "main.c" settings source report (.ok tree) := by
  intro source settings lookup report
  have hscan : Options.scan ["--legacy", "--max-depth", "+8", "main.c"] =
      .ok ⟨settings, some "main.c"⟩ := by decide
  have hfile : lookup "main.c" = .file source.toUTF8 := rfl
  obtain ⟨hexit, hreports, -⟩ := run_agrees "retc" hscan hfile
  have hok : (parseSource settings source).isOk = true := by decide +kernel
  cases hresult : parseSource settings source with
  | error error =>
    rw [hresult] at hok
    cases hok
  | ok tree =>
    rw [hresult] at hreports
    exact ⟨tree, rfl, hexit.2 ⟨tree, hresult⟩, hreports⟩

end CommandLine

end MiniC
