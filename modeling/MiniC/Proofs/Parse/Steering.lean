import Mathlib.Data.List.OfFn
import MiniC.Tree.Outline
import MiniC.Parse.Shape
import MiniC.Parse.Source
import MiniC.Proofs.Parse.Prefix

/-!
# Only the kinds of the tokens steer the parser

Two token lists of the same length and with the same kinds are parsed in the same way, whatever
texts and places their tokens have: the cursor comes to stand at the same index, the error is the
same one, the tree has the same form, and what either result shows of a token it takes from the same
index.

## The crux

For two lists this is not an induction hypothesis: a rule goes on with what an earlier rule
returned, and that differs between the lists. What does not differ is the shape of it. So the
invariant speaks of all lists with given kinds at once, and says that one shape fits them all.

## The architecture

* **`Standing`** is a state without its tokens: an index, a depth and a peak. Every list has a state
  there (`Standing.state`).
* **`Steered`** is the invariant, for a rule that may mention what was read before. Like `Steady` it
  has one lemma for each way of putting rules together.
* **`steered_program`** is the result for a whole program, by the recursion of the rules.
* **`kinds_steer`** says it for a call of a parser, and for texts.
-/

namespace MiniC

namespace Rule

variable {n : Nat} {α β σ τ : Type}

/-! ## States without tokens -/

/-- Where a rule stands in a token list, whatever tokens that list holds. -/
structure Standing where
  position : Nat
  depth : Nat
  peak : Nat

namespace Standing

variable (here : Standing) (tokens : Fin n → Token)

/-- The state of a list there. -/
def state : State where
  cursor := ⟨((List.ofFn tokens).take here.position).reverse, (List.ofFn tokens).drop here.position⟩
  depth := here.depth
  peak := here.peak

def enter : Standing := { here with depth := here.depth + 1, peak := max here.peak (here.depth + 1) }

def leave : Standing := { here with depth := here.depth - 1 }

def advance : Standing := { here with position := here.position + 1 }

/-- The index of the next token, if there is one. -/
def next? (n : Nat) : Option (Fin n) :=
  if h : here.position < n then some ⟨here.position, h⟩ else none

/-- The index of the next token, or of the last one at the end. -/
def place (hpos : 0 < n) : Fin n :=
  ⟨min here.position (n - 1), by omega⟩

theorem enter_state : (here.state tokens).enter = here.enter.state tokens := rfl

/-- Every state that a standing has in a list is a state in that list. -/
@[simp] theorem toList_state : (here.state tokens).cursor.toList = List.ofFn tokens := by
  simp [state, Cursor.toList]

@[simp] theorem remaining_state : (here.state tokens).cursor.remaining = n - here.position := by
  simp [state, Cursor.remaining]

/-- A position that is behind the end stands for the end. -/
@[simp] theorem position_state : (here.state tokens).cursor.position = min here.position n := by
  simp [state, Cursor.position]

/-- The next token is the one with the index that all lists have in common. -/
theorem peek?_state : (here.state tokens).cursor.peek? = (here.next? n).map tokens := by
  unfold next?
  rw [state, Cursor.peek?, List.head?_drop, List.getElem?_ofFn]
  split <;> rfl

/-- At the end of a list a step changes nothing. -/
theorem advance_state : (here.state tokens).advance = here.advance.state tokens := by
  have hlength : (List.ofFn tokens).length = n := List.length_ofFn
  rcases Nat.lt_or_ge here.position n with hlt | hge
  · have hlt' : here.position < (List.ofFn tokens).length := by omega
    simp only [State.advance, state, advance, Cursor.advance, List.drop_eq_getElem_cons hlt',
      List.take_add_one, List.getElem?_eq_getElem hlt', Option.toList_some, List.reverse_append,
      List.reverse_singleton, List.singleton_append]
  · have hdrop (k : Nat) (hk : n ≤ k) : (List.ofFn tokens).drop k = [] :=
      List.drop_eq_nil_of_le (by omega)
    have htake (k : Nat) (hk : n ≤ k) : (List.ofFn tokens).take k = List.ofFn tokens :=
      List.take_of_length_le (by omega)
    simp only [State.advance, state, advance, Cursor.advance, hdrop _ hge,
      hdrop (here.position + 1) (by omega), htake _ hge, htake (here.position + 1) (by omega)]

/-- The place of the cursor is that of the token with the common index, also at the end of the
list. -/
theorem location_state (hpos : 0 < n) :
    (here.state tokens).cursor.location = (tokens (here.place hpos)).location := by
  have hpeek := here.peek?_state tokens
  rcases Nat.lt_or_ge here.position n with hlt | hge
  · rw [next?, dif_pos hlt] at hpeek
    rw [Cursor.location_of_peek? hpeek]
    congr 2
    show (⟨here.position, hlt⟩ : Fin n) = here.place hpos
    apply Fin.ext
    show here.position = min here.position (n - 1)
    omega
  · rw [next?, dif_neg (by omega)] at hpeek
    refine Cursor.location_of_getLast? hpeek ?_
    rw [toList_state, List.getLast?_eq_getElem?, List.getElem?_ofFn, List.length_ofFn,
      dif_pos (by omega)]
    congr 2
    apply Fin.ext
    show n - 1 = min here.position (n - 1)
    omega

end Standing

/-! ## Steered rules -/

inductive Outcome.Shape (n : Nat) (σ : Type) where
  | ok (value : σ) (there : Standing)
  | error (error : ParseError.Shape n) (there : Standing)

/-- The outcome of a shape in one list, given how the value is filled. -/
def Outcome.Shape.fill (fill : (Fin n → Token) → σ → α) (tokens : Fin n → Token) :
    Outcome.Shape n σ → Outcome α
  | ok value there => .ok (fill tokens value) (there.state tokens)
  | error reason there => .error (reason.fill tokens) (there.state tokens)

/-- Wherever the rule starts, it ends in one shape in all lists with these kinds. The rule may
depend on the list, for it may go on with what was read from it before. -/
def Steered (kinds : Fin n → Token.Kind) (fill : (Fin n → Token) → σ → α)
    (rule : (Fin n → Token) → Rule α) : Prop :=
  ∀ here : Standing, ∃ shape : Outcome.Shape n σ, ∀ tokens, (∀ i, (tokens i).kind = kinds i) →
    (rule tokens).run (here.state tokens) = shape.fill fill tokens

section Combinators

variable {kinds : Fin n → Token.Kind} {fill : (Fin n → Token) → σ → α}
  {fill' : (Fin n → Token) → τ → β} {rule rule' : (Fin n → Token) → Rule α}
  {next : (Fin n → Token) → α → Rule β}

/-- Only the lists with the kinds count. -/
theorem Steered.congr (h : Steered kinds fill rule')
    (heq : ∀ tokens, (∀ i, (tokens i).kind = kinds i) → rule tokens = rule' tokens) :
    Steered kinds fill rule := by
  intro here
  obtain ⟨shape, hshape⟩ := h here
  refine ⟨shape, fun tokens hkinds => ?_⟩
  rw [heq tokens hkinds]
  exact hshape tokens hkinds

/-- A rule that takes a bound from the tokens to come is steered if it is so within every bound: all
lists have as many tokens to come. -/
theorem Steered.of_remaining {within : Nat → (Fin n → Token) → Rule α}
    (hrun : ∀ tokens s, (rule tokens).run s = (within s.cursor.remaining tokens).run s)
    (h : ∀ bound, Steered kinds fill (within bound)) : Steered kinds fill rule := by
  intro here
  obtain ⟨shape, hshape⟩ := h (n - here.position) here
  refine ⟨shape, fun tokens hkinds => ?_⟩
  rw [hrun, here.remaining_state tokens]
  exact hshape tokens hkinds

theorem steered_pure (value : σ) : Steered kinds fill fun tokens => pure (fill tokens value) :=
  fun here => ⟨.ok value here, fun _ _ => rfl⟩

theorem steered_fail (reason : ParseError.Shape n) :
    Steered kinds fill fun tokens => fail (reason.fill tokens) :=
  fun here => ⟨.error reason here, fun _ _ => rfl⟩

theorem steered_advance : Steered kinds (fun _ (value : Unit) => value) fun _ => advance := by
  refine fun here => ⟨.ok () here.advance, fun tokens _ => ?_⟩
  rw [run_advance, here.advance_state tokens]
  rfl

/-- What is seen is the token with the index, or nothing in all lists. -/
theorem steered_peek? :
    Steered kinds (fun tokens (found : Option (Fin n)) => found.map tokens) fun _ => peek? := by
  refine fun here => ⟨.ok (here.next? n) here, fun tokens _ => ?_⟩
  rw [run_peek?, here.peek?_state tokens]
  rfl

/-- Rules follow one another on shapes. -/
theorem Steered.bind (hrule : Steered kinds fill rule)
    (hnext : ∀ value : σ, Steered kinds fill' fun tokens => next tokens (fill tokens value)) :
    Steered kinds fill' fun tokens => rule tokens >>= next tokens := by
  intro here
  obtain ⟨shape, hshape⟩ := hrule here
  cases shape with
  | ok value there =>
    obtain ⟨shape', hshape'⟩ := hnext value there
    refine ⟨shape', fun tokens hkinds => ?_⟩
    rw [run_bind, hshape tokens hkinds]
    exact hshape' tokens hkinds
  | error reason there =>
    refine ⟨.error reason there, fun tokens hkinds => ?_⟩
    rw [run_bind, hshape tokens hkinds]
    rfl

/-- A nested rule is steered: all lists have the same depth there, so the cap stops all or none.
What it then shows is the place of a token. -/
theorem Steered.nested (hpos : 0 < n) {cap : Option Nat} (h : Steered kinds fill rule) :
    Steered kinds fill fun tokens => nested cap (rule tokens) := by
  intro here
  rcases room_or_reached cap here.depth with hroom | ⟨limit, rfl, hle⟩
  · obtain ⟨shape, hshape⟩ := h here.enter
    cases shape with
    | ok value there =>
      refine ⟨.ok value there.leave, fun tokens hkinds => ?_⟩
      rw [run_nested_of_lt (here.state tokens) hroom, here.enter_state tokens,
        hshape tokens hkinds]
      rfl
    | error reason there =>
      refine ⟨.error reason there.leave, fun tokens hkinds => ?_⟩
      rw [run_nested_of_lt (here.state tokens) hroom, here.enter_state tokens,
        hshape tokens hkinds]
      rfl
  · refine ⟨.error (.tooDeep limit (here.place hpos)) here, fun tokens _ => ?_⟩
    rw [run_nested_of_le (here.state tokens) hle, here.location_state tokens hpos]
    rfl

/-- Looking for a token compares its kind alone, and what was found is known by its index. -/
theorem steered_expect (kind : Token.Kind) (expected : Expectation) :
    Steered kinds (fun tokens (i : Fin n) => tokens i) fun _ => expect kind expected := by
  intro here
  cases hnext : here.next? n with
  | none =>
    refine ⟨.error (.unexpectedEnd expected) here, fun tokens _ => ?_⟩
    rw [run_expect, here.peek?_state tokens, hnext]
    rfl
  | some i =>
    by_cases hkind : kinds i = kind
    · refine ⟨.ok i here.advance, fun tokens hkinds => ?_⟩
      rw [run_expect, here.peek?_state tokens, hnext, here.advance_state tokens]
      exact if_pos ((hkinds i).trans hkind)
    · refine ⟨.error (.unexpectedToken expected i) here, fun tokens hkinds => ?_⟩
      rw [run_expect, here.peek?_state tokens, hnext]
      exact if_neg (by rwa [hkinds i])

/-- A table of operators is asked for the kind of the next token. -/
theorem steered_operator? (table : Token.Kind → Option BinaryOp) :
    Steered kinds (fun tokens (found : Option (BinaryOp × Fin n)) =>
      found.map fun (op, i) => (op, (tokens i).location)) fun _ => operator? table := by
  refine steered_peek?.bind fun found => ?_
  cases found with
  | none => exact steered_pure none
  | some i =>
    cases hop : table (kinds i) with
    | none =>
      refine (steered_pure none).congr fun tokens hkinds => ?_
      simp only [Option.map_some, hkinds, hop]
      rfl
    | some op =>
      refine (steered_advance.bind fun _ => steered_pure (some (op, i))).congr
        fun tokens hkinds => ?_
      simp only [Option.map_some, hkinds, hop]

end Combinators

/-! ## The rules of the grammar -/

section Rules

variable {kinds : Fin n → Token.Kind} (hpos : 0 < n) (ops : Operators) (cap : Option Nat)
  {factor term operand expression : (Fin n → Token) → Rule Expr}

/-- A chain is steered if its operand is. The left operand is given by a shape, for this is what the
turns before have read. -/
theorem steered_chain (table : Token.Kind → Option BinaryOp)
    (hoperand : Steered kinds Expr.Shape.fill operand) (left : Expr.Shape n) :
    Steered kinds Expr.Shape.fill fun tokens =>
      chain table (operand tokens) (left.fill tokens) := by
  have hwithin (bound : Nat) (left : Expr.Shape n) : Steered kinds Expr.Shape.fill fun tokens =>
      chainWithin table (operand tokens) bound (left.fill tokens) := by
    induction bound generalizing left with
    | zero => exact steered_pure left
    | succ bound ih =>
      refine (steered_operator? table).bind fun found => ?_
      cases found with
      | none => exact steered_pure left
      | some pair => exact hoperand.bind fun right => ih (.binary pair.1 left right pair.2)
  exact .of_remaining (fun tokens s => run_chain table (operand tokens) (left.fill tokens) s)
    fun bound => hwithin bound left

theorem steered_endOfInput : Steered kinds (fun _ (value : Unit) => value) fun _ => endOfInput := by
  refine steered_peek?.bind fun found => ?_
  cases found with
  | none => exact steered_pure ()
  | some i => exact steered_fail (.unexpectedToken .endOfInput i)

include hpos

theorem steered_productOperand (hfactor : Steered kinds Expr.Shape.fill factor)
    (hterm : Steered kinds Expr.Shape.fill term) :
    Steered kinds Expr.Shape.fill fun tokens =>
      productOperand ops cap (factor tokens) (term tokens) := by
  unfold productOperand
  cases ops.grouping
  · exact hfactor
  · exact hterm.nested hpos

theorem steered_termWithin (hfactor : Steered kinds Expr.Shape.fill factor) (bound : Nat) :
    Steered kinds Expr.Shape.fill fun tokens => termWithin ops cap (factor tokens) bound := by
  induction bound with
  | zero => exact hfactor
  | succ bound ih =>
    exact hfactor.bind (steered_chain _ (steered_productOperand hpos ops cap hfactor ih))

theorem steered_sumOf (hterm : Steered kinds Expr.Shape.fill term) :
    Steered kinds Expr.Shape.fill fun tokens => sumOf ops cap (term tokens) :=
  (hterm.bind (steered_chain _ hterm)).nested hpos

/-- A factor is steered if the rules inside of it are. Which case it takes depends on the kind of
its first token. -/
theorem steered_factorOf (hexpression : Steered kinds Expr.Shape.fill expression)
    (hfactor : Steered kinds Expr.Shape.fill factor) :
    Steered kinds Expr.Shape.fill fun tokens =>
      factorOf cap (expression tokens) (factor tokens) := by
  refine (steered_peek?.bind fun found => ?_).nested hpos
  cases found with
  | none => exact steered_fail (.unexpectedEnd .expression)
  | some i =>
    have hparenthesised : Steered kinds Expr.Shape.fill fun tokens =>
        advance >>= fun _ => expression tokens >>= fun inner =>
          expect .closeParen .closeParen >>= fun _ => pure inner :=
      steered_advance.bind fun _ => hexpression.bind fun inner =>
        (steered_expect _ _).bind fun _ => steered_pure inner
    have hliteral : Steered kinds Expr.Shape.fill fun tokens =>
        advance >>= fun _ => pure (.literal (tokens i).text (tokens i).location) :=
      steered_advance.bind fun _ => steered_pure (Expr.Shape.literal i)
    have hunary (op : UnaryOp) : Steered kinds Expr.Shape.fill fun tokens =>
        advance >>= fun _ => factor tokens >>= fun operand =>
          pure (.unary op operand (tokens i).location) :=
      steered_advance.bind fun _ => hfactor.bind fun operand =>
        steered_pure (Expr.Shape.unary op operand i)
    have hrefused : Steered kinds Expr.Shape.fill fun tokens =>
        fail (.unexpectedToken .expression (tokens i)) :=
      steered_fail (.unexpectedToken .expression i)
    -- the kind at this index is the same in every list, and so is the branch
    cases hkind : kinds i
    case openParen =>
      refine hparenthesised.congr fun tokens hkinds => ?_
      simp only [Option.map_some, hkinds, hkind]
    case intLiteral =>
      refine hliteral.congr fun tokens hkinds => ?_
      simp only [Option.map_some, hkinds, hkind]
    case minus =>
      refine (hunary .negate).congr fun tokens hkinds => ?_
      simp only [Option.map_some, hkinds, hkind, Token.Kind.unaryOp?]
    case bang =>
      refine (hunary .not).congr fun tokens hkinds => ?_
      simp only [Option.map_some, hkinds, hkind, Token.Kind.unaryOp?]
    case tilde =>
      refine (hunary .complement).congr fun tokens hkinds => ?_
      simp only [Option.map_some, hkinds, hkind, Token.Kind.unaryOp?]
    all_goals
      refine hrefused.congr fun tokens hkinds => ?_
      simp only [Option.map_some, hkinds, hkind, Token.Kind.unaryOp?]

theorem steered_factorWithin (bound : Nat) :
    Steered kinds Expr.Shape.fill fun _ => factorWithin ops cap bound := by
  induction bound with
  | zero => exact (steered_fail (.unexpectedEnd .expression)).nested hpos
  | succ bound ih =>
    exact steered_factorOf hpos cap
      (steered_sumOf hpos ops cap (steered_termWithin hpos ops cap ih bound)) ih

/-- The bound is the number of tokens to come, which is the same in all lists. -/
theorem steered_factor : Steered kinds Expr.Shape.fill fun _ => Rule.factor ops cap :=
  .of_remaining (fun _ s => run_factor ops cap s) fun bound =>
    steered_factorWithin hpos ops cap bound

theorem steered_term : Steered kinds Expr.Shape.fill fun _ => Rule.term ops cap :=
  .of_remaining (fun _ s => run_term ops cap s) fun bound =>
    steered_termWithin hpos ops cap (steered_factor hpos ops cap) bound

theorem steered_expression : Steered kinds Expr.Shape.fill fun _ => Rule.expression ops cap :=
  steered_sumOf hpos ops cap (steered_term hpos ops cap)

/-- A statement keeps the index of its keyword and the shape of its expression. -/
theorem steered_statement :
    Steered kinds (fun tokens (shape : Fin n × Expr.Shape n) =>
      ⟨shape.2.fill tokens, (tokens shape.1).location⟩) fun _ => statement ops cap :=
  (steered_expect _ _).bind fun keyword => (steered_expression hpos ops cap).bind fun returned =>
    (steered_expect _ _).bind fun _ => steered_pure (keyword, returned)

/-- A function keeps the indices of its return type and its name. -/
theorem steered_function :
    Steered kinds (fun tokens (shape : Program.Shape n) => (shape.fill tokens).function)
      fun _ => function ops cap :=
  (steered_expect _ _).bind fun returnType => (steered_expect _ _).bind fun name =>
    (steered_expect _ _).bind fun _ => (steered_expect _ _).bind fun _ =>
    (steered_expect _ _).bind fun _ => (steered_statement hpos ops cap).bind fun body =>
    (steered_expect _ _).bind fun _ =>
    steered_pure (Program.Shape.mk returnType name body.1 body.2)

/-- **One shape fits all lists with the same kinds.** -/
theorem steered_program (strict : Bool) :
    Steered kinds Program.Shape.fill fun _ => program ops cap strict := by
  have hfunction : Steered kinds Program.Shape.fill fun _ => do
      let function ← function ops cap
      if strict then endOfInput
      return ⟨function⟩ := by
    refine (steered_function hpos ops cap).bind fun shape => ?_
    cases strict with
    | false => exact steered_pure shape
    | true => exact steered_endOfInput.bind fun _ => steered_pure shape
  intro here
  obtain ⟨shape, hshape⟩ := hfunction here
  refine ⟨shape, fun tokens hkinds => ?_⟩
  have hne : (here.state tokens).cursor.toList ≠ [] := by
    rw [here.toList_state tokens, Ne, List.ofFn_eq_nil_iff]
    omega
  rw [← hshape tokens hkinds, program, run_bind]
  dsimp only [Rule.cursor]
  rw [if_neg hne]

end Rules

end Rule

namespace Parser

variable {n : Nat}

/-! ## A call of a parser -/

/-- The outcome is how the rule for programs ends on a list of which nothing is consumed yet. -/
theorem outcome_eq (settings : Settings) (tokens : List Token) :
    outcome settings tokens =
      match (rule settings).run { cursor := .ofList tokens } with
      | .ok program t => (.ok program, t.cursor.position)
      | .error error t => (.error error, t.cursor.position) := by
  have hparse : (ofTokens settings tokens).parseProgram =
      match (rule settings).run { cursor := .ofList tokens } with
      | .ok program state => (.ok program, ⟨settings, state⟩)
      | .error error state => (.error error, ⟨settings, state⟩) := rfl
  rw [outcome, position, hparse]
  cases (rule settings).run { cursor := .ofList tokens } <;> rfl

/-- One shape fits the outcomes in all lists with the same kinds. -/
theorem exists_shape (settings : Settings) (kinds : Fin n → Token.Kind) :
    ∃ (shape : Parser.Shape n) (position : Nat), ∀ tokens : Fin n → Token,
      (∀ i, (tokens i).kind = kinds i) →
        outcome settings (List.ofFn tokens) = (shape.fill tokens, position) := by
  rcases Nat.eq_zero_or_pos n with rfl | hpos
  · refine ⟨.error (.unexpectedEnd .functionDeclaration), 0, fun tokens _ => ?_⟩
    rw [List.ofFn_zero]
    exact outcome_nil settings
  · have hsteered : Rule.Steered kinds Program.Shape.fill fun _ => rule settings :=
      Rule.steered_program hpos settings.dialect.operators settings.maxDepth settings.strict
    obtain ⟨shape, hshape⟩ := hsteered ⟨0, 0, 0⟩
    have hrun (tokens : Fin n → Token) (hkinds : ∀ i, (tokens i).kind = kinds i) :
        (rule settings).run { cursor := .ofList (List.ofFn tokens) } =
          shape.fill Program.Shape.fill tokens := hshape tokens hkinds
    cases shape with
    | ok program there =>
      refine ⟨.ok program, min there.position n, fun tokens hkinds => ?_⟩
      rw [outcome_eq, hrun tokens hkinds]
      exact congrArg _ (there.position_state tokens)
    | error reason there =>
      refine ⟨.error reason, min there.position n, fun tokens hkinds => ?_⟩
      rw [outcome_eq, hrun tokens hkinds]
      exact congrArg _ (there.position_state tokens)

/-- Every list of a length is a function on the indices below it. -/
theorem exists_ofFn {tokens : List Token} (h : tokens.length = n) :
    ∃ f : Fin n → Token, List.ofFn f = tokens := by
  subst h
  exact ⟨tokens.get, List.ofFn_get tokens⟩

/-- Two results that say the same, if not of the same places: trees that are the same up to places
and have the same outline, or parse errors that are the same up to places. -/
def SameUpToPlaces : Except SourceError Program → Except SourceError Program → Prop
  | .ok program, .ok program' =>
    program.unplaced = program'.unplaced ∧ program.outline = program'.outline
  | .error (.parse reason), .error (.parse reason') => reason.unplaced = reason'.unplaced
  | _, _ => False

/-- Filled with the same kinds and texts, a shape says the same. -/
theorem Shape.sameUpToPlaces {tokens tokens' : Fin n → Token}
    (h : ∀ i, (tokens i).unplaced = (tokens' i).unplaced) (shape : Parser.Shape n) :
    SameUpToPlaces ((shape.fill tokens).mapError .parse)
      ((shape.fill tokens').mapError .parse) := by
  cases shape with
  | ok program =>
    have hprogram := Program.Shape.unplaced_fill h program
    refine ⟨hprogram, ?_⟩
    rw [← Program.outline_unplaced, hprogram, Program.outline_unplaced]
  | error reason => exact ParseError.Shape.unplaced_fill h reason

/-- Lists with the same kinds and texts say the same. -/
theorem sameUpToPlaces_parseTokens (settings : Settings) {tokens tokens' : List Token}
    (h : tokens.map Token.unplaced = tokens'.map Token.unplaced) :
    SameUpToPlaces ((parseTokens settings tokens).mapError .parse)
      ((parseTokens settings tokens').mapError .parse) := by
  have hlength : tokens'.length = tokens.length := by
    rw [← List.length_map Token.unplaced, ← h, List.length_map]
  generalize hn : tokens.length = n at hlength
  obtain ⟨f, rfl⟩ := exists_ofFn hn
  obtain ⟨f', rfl⟩ := exists_ofFn hlength
  rw [List.map_ofFn, List.map_ofFn] at h
  have hunplaced (i : Fin n) : (f i).unplaced = (f' i).unplaced :=
    congrFun (List.ofFn_injective h) i
  obtain ⟨shape, position, hshape⟩ := exists_shape settings fun i => (f i).kind
  have hfirst : parseTokens settings (List.ofFn f) = shape.fill f :=
    congrArg Prod.fst (hshape f fun _ => rfl)
  have hsecond : parseTokens settings (List.ofFn f') = shape.fill f' :=
    congrArg Prod.fst (hshape f' fun i => (congrArg Token.kind (hunplaced i)).symm)
  rw [hfirst, hsecond]
  exact shape.sameUpToPlaces hunplaced

/-- **Only the kinds of the tokens steer the parser.** For all kinds there is one shape and one
position in which every list with these kinds is parsed, whatever its texts and places; so two texts
that lex to the same kinds and texts are read as the same tree or refused with the same error, up to
places. -/
theorem kinds_steer (settings : Settings) :
    (∀ (n : Nat) (kinds : Fin n → Token.Kind), ∃ (shape : Parser.Shape n) (position : Nat),
      ∀ tokens : Fin n → Token, (∀ i, (tokens i).kind = kinds i) →
        outcome settings (List.ofFn tokens) = (shape.fill tokens, position)) ∧
    ∀ (source source' : String) (tokens tokens' : List Token), tokenize source = .ok tokens →
      tokenize source' = .ok tokens' → tokens.map Token.unplaced = tokens'.map Token.unplaced →
        SameUpToPlaces (parseSource settings source) (parseSource settings source') := by
  refine ⟨fun n kinds => exists_shape settings kinds, ?_⟩
  intro source source' tokens tokens' htokens htokens' h
  rw [parseSource_of_tokens htokens, parseSource_of_tokens htokens']
  exact sameUpToPlaces_parseTokens settings h

end Parser

end MiniC
