import MiniC.CommandLine.Arguments
import MiniC.Parse.Source
import MiniC.Tree.Outline

/-!
# What a run of the command line reports

A run ends in a `Report`: an exit status and the complete text of both output streams. It is a
pure function of the arguments and of what stands at a path. Messages and progress go to the
error stream; the outline of the tree is the only text on standard output, and it is there only
if the whole run succeeds.

* **`plan`** reads the arguments: a file to parse, or a report at once.
* **`process`** lexes and parses what was found at the path.
* **`run`** puts the two together.
-/

namespace MiniC.CommandLine

structure Report where
  exit : Nat
  stdout : String := ""
  stderr : String
  deriving DecidableEq, Repr

inductive FileEntry where
  | missing
  | directory
  | denied
  | file (content : ByteArray)

/-! ## Texts -/

def usage (program : String) : String :=
  s!"Usage: {program} <file.c> [--legacy] [--strict] [--max-depth N | --no-depth-limit]\n" ++
  "\n" ++
  "Options:\n" ++
  "  --legacy          Use the legacy operator grouping\n" ++
  "  --strict          Reject tokens after the function body\n" ++
  "  --max-depth N     Cap expression nesting at N levels\n" ++
  "  --no-depth-limit  Disable the nesting cap\n" ++
  "\n" ++
  "Example:\n" ++
  s!"  {program} demos/arithmetic.c\n"

/-- The report of a run that an argument stops. Only help is no failure. -/
def Stop.report (program : String) : Stop → Report
  | .help => { exit := 0, stderr := usage program }
  | .unknownOption argument =>
    { exit := 1, stderr := s!"Error: Unknown option '{argument}'\n" ++ usage program }
  | .missingNumber => { exit := 1, stderr := "Error: --max-depth expects a number\n" }

def noFileReport (program : String) : Report :=
  { exit := 1, stderr := "Error: No input file provided\n\n" ++ usage program }

/-! ## The run -/

def plan (program : String) (arguments : List String) : Except Report (String × Settings) :=
  match Options.scan arguments with
  | .error stop => .error (stop.report program)
  | .ok options =>
    match options.file with
    | none => .error (noFileReport program)
    | some file => .ok (file, options.settings)

/-- Lexes and parses a text, with a line of progress before each stage. -/
def processSource (file : String) (settings : Settings) (source : String) : Report :=
  let lexing := s!"Lexing {file}...\n"
  match tokenize source with
  | .error error => { exit := 1, stderr := lexing ++ error.message ++ "\n" }
  | .ok tokens =>
    let parsing :=
      s!"Parsing {tokens.length} tokens ({settings.dialect.name} dialect)...\n"
    let (result, parser) := (Parser.ofTokens settings tokens).parseProgram
    match result with
    | .error error => { exit := 1, stderr := lexing ++ parsing ++ error.message ++ "\n" }
    | .ok program =>
      let parsed :=
        s!"Parsed successfully. Function '{program.function.name}' consumed " ++
          s!"{parser.position} of {tokens.length} tokens.\n"
      { exit := 0, stdout := program.outline, stderr := lexing ++ parsing ++ parsed }

def process (file : String) (settings : Settings) : FileEntry → Report
  | .missing => { exit := 1, stderr := s!"Error: File '{file}' not found\n" }
  | .directory =>
    { exit := 1
      stderr :=
        "Error: Os \x7b code: 21, kind: IsADirectory, message: \"Is a directory\" \x7d\n" }
  | .denied =>
    { exit := 1
      stderr :=
        "Error: Os \x7b code: 13, kind: PermissionDenied, " ++
          "message: \"Permission denied\" \x7d\n" }
  | .file content =>
    match String.fromUTF8? content with
    | none =>
      { exit := 1
        stderr :=
          "Error: Error \x7b kind: InvalidData, " ++
            "message: \"stream did not contain valid UTF-8\" \x7d\n" }
    | some source => processSource file settings source

def run (program : String) (arguments : List String) (lookup : String → FileEntry) : Report :=
  match plan program arguments with
  | .error report => report
  | .ok (file, settings) => process file settings (lookup file)

end MiniC.CommandLine
