import MiniC.Proofs.Grammar.Nodes
import MiniC.Proofs.Parse.Steering
import MiniC.Proofs.Token.Faithful
import MiniC.Proofs.Token.Faults

/-!
# Every place that is reported is real

Whatever reading a text ends with, the places in the result are places of that text. In a tree each
node points at what it came from, the function at its return type and the statement at its keyword,
and in reading order every place is behind the one before. An error points at what it is about.

## The architecture

The parts are known from one stage each, and are put together here.

* The lexer puts every token where its text stands (`LaidOut.stands`), one behind the other
  (`LaidOut.ordered`); where it fails, the text halts (`exists_halts_of_error`).
* The parser takes every place from a token: `DerivesProgram.exists_nodes` for trees,
  `ParseError.PlacedIn.of_parseTokens` for errors.
* **`PointsAt`** is what a place has to do with the text, and **`places_are_real`** is the result.
-/

namespace MiniC

variable {source word : String} {location : Location} {tokens nodes : List Token} {token : Token}
  {settings : Settings}

/-! ## What the places of a result have to do with the text -/

def Expr.Mark.text : Expr.Mark → String
  | literal text => text
  | unary op => op.sign
  | binary op => op.sign

/-- The source has this word at this place. The word is not empty, so the place is not behind the
end of the source. -/
def PointsAt (source : String) (location : Location) (word : String) : Prop :=
  word ≠ "" ∧ ∃ front behind,
    source.toList = front ++ word.toList ++ behind ∧ location = Location.behind front

/-- The places of a program in reading order: of the function, of the statement, and of the nodes
of the expression. -/
def Program.places (program : Program) : List Location :=
  program.function.location :: program.function.body.location ::
    program.returned.inorder.map Prod.snd

/-- The program shows where its parts stand in the source. -/
structure Program.PlacedIn (source : String) (program : Program) : Prop where
  function : PointsAt source program.function.location "int"
  statement : PointsAt source program.function.body.location "return"
  nodes : ∀ node ∈ program.returned.inorder, PointsAt source node.2 node.1.text
  ordered : program.places.Pairwise Location.Before

/-- A lexing error stands where the reading of the source comes to a halt: at the character it is
about, or at the opening of a comment that is never closed. -/
inductive LexError.PlacedIn (source : String) : LexError → Prop where
  | stray {front behind : List Char} {c : Char} (hsource : source.toList = front ++ c :: behind)
      (hread : Munches front (c :: behind)) (hstray : Stray c) :
      PlacedIn source ⟨.unexpectedChar c, Location.behind front⟩
  | comment {front body : List Char} (hsource : source.toList = front ++ '/' :: '*' :: body)
      (hread : Munches front ('/' :: '*' :: body)) (hopen : ¬ ['*', '/'] <:+: body) :
      PlacedIn source ⟨.unterminatedComment, Location.behind front⟩

/-- The lexer reads the token from the source. -/
def Token.IsReadFrom (source : String) (token : Token) : Prop :=
  ∃ tokens, tokenize source = .ok tokens ∧ token ∈ tokens

/-- A parse error that has a place stands at the start of a token that was read. An unexpected token
is such a token itself. -/
inductive ParseError.PlacedIn (source : String) : ParseError → Prop where
  | unexpectedEnd {expected : Expectation} : PlacedIn source (.unexpectedEnd expected)
  | unexpectedToken {expected : Expectation} {found : Token} (hread : found.IsReadFrom source)
      (hplace : PointsAt source found.location found.text) :
      PlacedIn source (.unexpectedToken expected found)
  | tooDeep {limit : Nat} {token : Token} (hread : token.IsReadFrom source)
      (hplace : PointsAt source token.location token.text) :
      PlacedIn source (.tooDeep limit token.location)

def SourceError.PlacedIn (source : String) : SourceError → Prop
  | lex error => error.PlacedIn source
  | parse error => error.PlacedIn source

def placesOf : Except SourceError Program → List Location
  | .ok program => program.places
  | .error (.lex error) => [error.location]
  | .error (.parse error) => error.location?.toList

/-- What a place points at has a first character, so the place is none behind the end of the
source. -/
theorem PointsAt.exists_char (h : PointsAt source location word) :
    ∃ front c behind, source.toList = front ++ c :: behind ∧ location = Location.behind front := by
  obtain ⟨hne, front, behind, hsource, hlocation⟩ := h
  cases hchars : word.toList with
  | nil => exact absurd (String.toList_eq_nil_iff.1 hchars) hne
  | cons c cs => exact ⟨front, c, cs ++ behind, by simp [hsource, hchars], hlocation⟩

/-! ## Tokens -/

theorem laidOut_of_tokenize (h : tokenize source = .ok tokens) :
    LaidOut (Location.behind []) source.toList tokens := by
  rw [Location.behind_nil, ← Lexer.walk_eq_ok_iff]
  exact h

/-- A well-formed token of a kind that is written in one way is written in that way. -/
theorem Token.WellFormed.text_eq (h : token.WellFormed) {spelling : String}
    (hspelling : token.kind.spelling? = some spelling) : token.text = spelling := by
  obtain ⟨kind, text, location⟩ := token
  have hkind : kind.spelling? = some text := by
    cases kind with
    | intLiteral | identifier => cases hspelling
    | _ => exact h
  exact Option.some.inj (hkind.symm.trans hspelling)

/-- Every token of a text points at its own text. -/
theorem pointsAt_of_mem (h : tokenize source = .ok tokens) (htoken : token ∈ tokens) :
    token.WellFormed ∧ PointsAt source token.location token.text := by
  obtain ⟨hwellFormed, front, behind, hsource, hlocation, -⟩ :=
    (laidOut_of_tokenize h).stands rfl token htoken
  refine ⟨hwellFormed, ?_, front, behind, hsource, hlocation⟩
  intro hempty
  apply LaidOut.text_ne_nil hwellFormed
  rw [hempty, String.toList_empty]

/-- A token of a kind that is written in one way points at that spelling. -/
theorem pointsAt_spelling (h : tokenize source = .ok tokens) (htoken : token ∈ tokens)
    {spelling : String} (hspelling : token.kind.spelling? = some spelling) :
    PointsAt source token.location spelling := by
  obtain ⟨hwellFormed, hpoints⟩ := pointsAt_of_mem h htoken
  rwa [← hwellFormed.text_eq hspelling]

/-- A node points at what it is written as. -/
theorem Expr.FromToken.pointsAt {node : Expr.Mark × Location} (hfrom : Expr.FromToken node token)
    (h : tokenize source = .ok tokens) (htoken : token ∈ tokens) :
    PointsAt source node.2 node.1.text := by
  cases hfrom with
  | literal => exact (pointsAt_of_mem h htoken).2
  | @unary _ op hkind =>
    apply pointsAt_spelling h htoken
    rw [hkind]
    cases op <;> rfl
  | @binary _ op hkind =>
    apply pointsAt_spelling h htoken
    rw [hkind]
    cases op <;> rfl

/-! ## The three ways to end -/

/-- A program that is read from a text is placed in it: its nodes come from tokens of the text, in
the same order. -/
theorem Program.PlacedIn.of_parseTokens {program : Program} (h : tokenize source = .ok tokens)
    (hparse : parseTokens settings tokens = .ok program) : program.PlacedIn source := by
  obtain ⟨-, -, frames, hderives, -⟩ := Parser.parseProgram_ok_iff.1 ⟨hparse, rfl⟩
  obtain ⟨returnType, keyword, nodes, hsublist, hreturnType, hkeyword, hnodes, hfunction,
    hstatement⟩ := hderives.exists_nodes
  have hsublist := hsublist.trans (List.take_sublist _ tokens)
  have hmem {token : Token} (htoken : token ∈ returnType :: keyword :: nodes) : token ∈ tokens :=
    hsublist.subset htoken
  refine ⟨?_, ?_, fun node hnode => ?_, ?_⟩
  · rw [hfunction]
    exact pointsAt_spelling h (hmem (by simp)) (by rw [hreturnType]; rfl)
  · rw [hstatement]
    exact pointsAt_spelling h (hmem (by simp)) (by rw [hkeyword]; rfl)
  · obtain ⟨token, htoken, hfrom⟩ := Grammar.exists_token hnodes node hnode
    exact hfrom.pointsAt h (hmem (by simp [htoken]))
  · have hplaces : program.places = (returnType :: keyword :: nodes).map Token.location := by
      rw [Program.places, hfunction, hstatement, Grammar.map_location_nodes hnodes]
      rfl
    rw [hplaces, List.pairwise_map]
    exact (laidOut_of_tokenize h).ordered.sublist hsublist

/-- An error of the lexer is placed where the reading of the text halts. -/
theorem LexError.PlacedIn.of_tokenize {error : LexError} (h : tokenize source = .error error) :
    error.PlacedIn source := by
  obtain ⟨front, rest, hsource, hread, hhalts⟩ := exists_halts_of_error h
  rcases hhalts.cases with ⟨c, cs, rfl, hstray⟩ | ⟨body, rfl, hopen⟩
  · have hfails := hread.tokenize_eq hsource (walk_of_stray hstray front cs)
    obtain rfl := Except.error.inj (h.symm.trans (congrArg Prod.fst hfails))
    exact .stray hsource hread hstray
  · have hfails := hread.tokenize_eq hsource (walk_of_open hopen front)
    obtain rfl := Except.error.inj (h.symm.trans (congrArg Prod.fst hfails))
    exact .comment hsource hread hopen

/-- An error of the parser takes its place from a token that the lexer has read, if it has one at
all. -/
theorem ParseError.PlacedIn.of_parseTokens {error : ParseError} (h : tokenize source = .ok tokens)
    (hparse : parseTokens settings tokens = .error error) : error.PlacedIn source := by
  obtain ⟨n, hn⟩ : ∃ n, tokens.length = n := ⟨_, rfl⟩
  obtain ⟨f, rfl⟩ := Parser.exists_ofFn hn
  obtain ⟨shape, position, hshape⟩ := Parser.exists_shape settings fun i => (f i).kind
  have hfill : parseTokens settings (List.ofFn f) = shape.fill f :=
    congrArg Prod.fst (hshape f fun _ => rfl)
  have hmem (i : Fin n) : f i ∈ List.ofFn f := List.mem_ofFn.2 ⟨i, rfl⟩
  rw [hfill] at hparse
  -- whatever the error shows of a token is taken from this list
  cases shape with
  | ok program => cases hparse
  | error reason =>
    obtain rfl := Except.error.inj hparse
    cases reason with
    | unexpectedEnd expected => exact .unexpectedEnd
    | unexpectedToken expected found =>
      exact .unexpectedToken ⟨_, h, hmem found⟩ (pointsAt_of_mem h (hmem found)).2
    | tooDeep limit token => exact .tooDeep ⟨_, h, hmem token⟩ (pointsAt_of_mem h (hmem token)).2

/-- So no place of a program is outside of the text. -/
theorem Program.PlacedIn.exists_char {program : Program} (h : program.PlacedIn source) :
    ∀ location ∈ program.places, ∃ front c behind,
      source.toList = front ++ c :: behind ∧ location = Location.behind front := by
  intro location hlocation
  rcases List.mem_cons.1 hlocation with rfl | hlater
  · exact h.function.exists_char
  rcases List.mem_cons.1 hlater with rfl | hplace
  · exact h.statement.exists_char
  · obtain ⟨node, hnode, rfl⟩ := List.mem_map.1 hplace
    exact (h.nodes node hnode).exists_char

/-- Nor is the place of an error. -/
theorem SourceError.PlacedIn.exists_char {error : SourceError} (h : error.PlacedIn source) :
    ∀ location ∈ placesOf (.error error), ∃ front c behind,
      source.toList = front ++ c :: behind ∧ location = Location.behind front := by
  intro location hlocation
  cases error with
  | lex error =>
    obtain rfl := List.mem_singleton.1 hlocation
    cases h with
    | stray hsource => exact ⟨_, _, _, hsource, rfl⟩
    | comment hsource => exact ⟨_, _, _, hsource, rfl⟩
  | parse error =>
    cases h with
    | unexpectedEnd => cases hlocation
    | unexpectedToken _ hplace | tooDeep _ hplace =>
      obtain rfl := List.mem_singleton.1 hlocation
      exact hplace.exists_char

/-- **Every place that is reported is real.** Under all settings the places of a tree point at what
its parts came from, in reading order, and the place of an error at what the error is about; and no
place is outside of the text. -/
theorem places_are_real (source : String) (settings : Settings) :
    (∀ program, parseSource settings source = .ok program → program.PlacedIn source) ∧
    (∀ error, parseSource settings source = .error error → error.PlacedIn source) ∧
    ∀ location ∈ placesOf (parseSource settings source), ∃ front c behind,
      source.toList = front ++ c :: behind ∧ location = Location.behind front := by
  have hok (program : Program) (h : parseSource settings source = .ok program) :
      program.PlacedIn source := by
    cases htokens : tokenize source with
    | error fault =>
      rw [parseSource_of_fault htokens] at h
      cases h
    | ok tokens =>
      rw [parseSource_of_tokens htokens, Result.mapError_eq_ok_iff] at h
      exact .of_parseTokens htokens h
  have herror (error : SourceError) (h : parseSource settings source = .error error) :
      error.PlacedIn source := by
    cases htokens : tokenize source with
    | error fault =>
      rw [parseSource_of_fault htokens] at h
      obtain rfl := Except.error.inj h
      exact LexError.PlacedIn.of_tokenize htokens
    | ok tokens =>
      rw [parseSource_of_tokens htokens, Result.mapError_eq_error_iff] at h
      obtain ⟨reason, hreason, rfl⟩ := h
      exact ParseError.PlacedIn.of_parseTokens htokens hreason
  refine ⟨hok, herror, ?_⟩
  cases hresult : parseSource settings source with
  | ok program => exact (hok program hresult).exists_char
  | error error => exact (herror error hresult).exists_char

end MiniC
