import MiniC.Proofs.Grammar.Walk

/-!
# Where the dialects part

The automata of the two dialects differ in one step: behind an operand the legacy one refuses a
minus. So along a token list that the standard automaton reads, the legacy automaton either keeps
up with it, or it is stuck at the first minus that can only mean a subtraction.

* **`BinaryMinusAt`** says in terms of tokens alone that such a minus stands at a position, and
  **`unclosed`** counts the parentheses that are open there.
* **`walk_unclosed`** and **`step?_eq_after`**, `step?_eq_operand` tie both to the states.
* **`walk_legacy_or_minus`** is the parting, **`not_binaryMinusAt_of_walk`** says that it happens
  at the first occasion.
-/

namespace MiniC.Grammar

/-- A minus with an operand directly in front of it. -/
def BinaryMinusAt (tokens : List Token) (position : Nat) : Prop :=
  (∃ sign ∈ tokens[position]?, sign.kind = .minus) ∧
    ∃ operand ∈ (tokens.take position).getLast?,
      operand.kind = .intLiteral ∨ operand.kind = .closeParen

/-- The number of parentheses that tokens open and do not close. -/
def unclosed (tokens : List Token) : Nat :=
  (tokens.map Token.kind).count .openParen - (tokens.map Token.kind).count .closeParen

namespace Automaton

variable {dialect : Dialect} {state next last : Automaton} {kind : Token.Kind} {sign : Token}
  {tokens front back : List Token} {parens : Nat}

/-! ## Single steps -/

/-- The open parentheses of a state. One is open while the header waits for the end of its
parameter list. -/
def unclosed : Automaton → Nat
  | closeParameters => 1
  | operand parens | after parens => parens
  | returnType | functionName | openParameters | openBody | returnKeyword | closing | accepted => 0

/-- A step counts the parenthesis that its token opens or closes. -/
theorem step?_unclosed (h : step? dialect state kind = some next) :
    next.unclosed + [kind].count .closeParen = state.unclosed + [kind].count .openParen := by
  fun_cases step? dialect state kind <;> simp_all [step?] <;> subst h <;> simp [unclosed]

/-- The automaton gets behind an operand over a literal or a closing parenthesis. -/
theorem step?_eq_after (h : step? dialect state kind = some (.after parens)) :
    kind = .intLiteral ∨ kind = .closeParen := by
  fun_cases step? dialect state kind <;> simp_all [step?]

/-- It gets in front of an operand over neither of them, so the last token tells these two states
apart. -/
theorem step?_eq_operand (h : step? dialect state kind = some (.operand parens)) :
    ¬ (kind = .intLiteral ∨ kind = .closeParen) := by
  fun_cases step? dialect state kind <;> simp_all [step?]

/-- The only difference between the dialects. -/
theorem step?_legacy_or_minus (h : step? .standard state kind = some next) :
    step? .legacy state kind = some next ∨ kind = .minus ∧ ∃ parens, state = .after parens := by
  fun_cases step? .standard state kind <;> simp_all [step?]

/-- The legacy automaton knows a minus as a sign only. -/
theorem step?_legacy_minus (h : step? .legacy state .minus = some next) :
    ∃ parens, state = .operand parens := by
  cases state with
  | operand parens => exact ⟨parens, rfl⟩
  | after parens =>
    cases parens <;> simp [step?] at h
  | _ => cases h

theorem step?_legacy_after_minus (parens : Nat) : step? .legacy (.after parens) .minus = none := by
  cases parens <;> rfl

/-! ## Walks -/

/-- A walk over two lists, whether or not it gets through the first one. -/
theorem walk_append_eq_bind (dialect : Dialect) (state : Automaton) (front back : List Token) :
    walk dialect state (front ++ back) =
      (walk dialect state front).bind fun middle => walk dialect middle back := by
  induction front generalizing state with
  | nil => rfl
  | cons token front ih =>
    rw [List.cons_append, walk, walk]
    cases step? dialect state token.kind with
    | none => rfl
    | some middle => exact ih middle

/-- The last step of a walk. -/
theorem walk_concat (h : walk dialect state (front ++ [sign]) = some last) :
    ∃ middle, walk dialect state front = some middle ∧
      step? dialect middle sign.kind = some last := by
  rw [walk_append_eq_bind, Option.bind_eq_some_iff] at h
  obtain ⟨middle, hfront, hstep⟩ := h
  refine ⟨middle, hfront, ?_⟩
  rw [walk] at hstep
  split at hstep
  next => cases hstep
  next next hnext => rw [hnext, ← hstep, walk]

/-- A walk closes as many parentheses as it opens, but for those that its ends differ by. -/
theorem walk_unclosed (h : walk dialect state tokens = some next) :
    next.unclosed + (tokens.map Token.kind).count .closeParen =
      state.unclosed + (tokens.map Token.kind).count .openParen := by
  induction tokens generalizing state with
  | nil =>
    obtain rfl := Option.some.inj h
    rfl
  | cons token tokens ih =>
    rw [walk] at h
    split at h
    next => cases h
    next middle hstep =>
      have hfirst := step?_unclosed hstep
      have hrest := ih h
      rw [List.map_cons, List.count_cons, List.count_cons]
      rw [List.count_singleton, List.count_singleton] at hfirst
      omega

/-- Where the automaton is behind an operand, the count over the tokens is the one that it keeps. -/
theorem unclosed_of_walk (h : walk dialect returnType tokens = some (.after parens)) :
    Grammar.unclosed tokens = parens := by
  have hcount := walk_unclosed h
  rw [unclosed, unclosed] at hcount
  unfold Grammar.unclosed
  omega

/-- The legacy automaton follows the standard one, up to a minus behind an operand. -/
theorem walk_legacy_or_minus (h : walk .standard state tokens = some next) :
    walk .legacy state tokens = some next ∨
      ∃ front sign back parens, tokens = front ++ sign :: back ∧ sign.kind = .minus ∧
        walk .legacy state front = some (.after parens) := by
  induction tokens generalizing state with
  | nil => exact .inl h
  | cons token tokens ih =>
    rw [walk] at h
    split at h
    next => cases h
    next middle hstep =>
      rcases step?_legacy_or_minus hstep with hlegacy | ⟨hminus, parens, rfl⟩
      · rcases ih h with hwalk | ⟨front, sign, back, parens, rfl, hsign, hwalk⟩
        · exact .inl (by rw [walk_cons_of_some hlegacy, hwalk])
        · exact .inr ⟨token :: front, sign, back, parens, rfl, hsign, by
            rw [walk_cons_of_some hlegacy, hwalk]⟩
      · exact .inr ⟨[], token, tokens, parens, rfl, hminus, rfl⟩

/-! ## The first binary minus -/

/-- The token in front of such a place ends an operand. -/
theorem last_of_walk_after (h : walk dialect returnType front = some (.after parens)) :
    ∃ operand ∈ front.getLast?, operand.kind = .intLiteral ∨ operand.kind = .closeParen := by
  rcases List.eq_nil_or_concat front with rfl | ⟨init, operand, rfl⟩
  · cases h
  · rw [List.concat_eq_append] at h ⊢
    obtain ⟨middle, -, hstep⟩ := walk_concat h
    exact ⟨operand, List.getLast?_concat, step?_eq_after hstep⟩

/-- So a minus there is a binary one. -/
theorem binaryMinusAt_of_walk (h : walk dialect returnType front = some (.after parens))
    (hsign : sign.kind = .minus) : BinaryMinusAt (front ++ sign :: back) front.length := by
  refine ⟨⟨sign, by simp, hsign⟩, ?_⟩
  rw [List.take_left]
  exact last_of_walk_after h

/-- The legacy automaton walks over no binary minus. -/
theorem not_binaryMinusAt_of_walk (h : walk .legacy returnType front = some last)
    {position : Nat} (hposition : position < front.length) :
    ¬ BinaryMinusAt (front ++ back) position := by
  rintro ⟨⟨sign, hsign, hminus⟩, operand, hoperand, hkind⟩
  rw [List.getElem?_append_left hposition] at hsign
  rw [List.take_append_of_le_length (Nat.le_of_lt hposition)] at hoperand
  obtain ⟨init, hinit⟩ := List.getLast?_eq_some_iff.1 hoperand
  -- the walk up to the minus, the minus, and what is behind it
  obtain ⟨hlt, hget⟩ := List.getElem?_eq_some_iff.1 hsign
  rw [← List.take_append_drop position front, List.drop_eq_getElem_cons hlt, hget,
    walk_append_eq_bind, Option.bind_eq_some_iff] at h
  obtain ⟨middle, hfront, hrest⟩ := h
  rw [walk] at hrest
  split at hrest
  next => cases hrest
  next _ hstep =>
    rw [hminus] at hstep
    obtain ⟨parens, rfl⟩ := step?_legacy_minus hstep
    -- before the minus an operand is due, so no operand was behind
    rw [hinit] at hfront
    obtain ⟨_, -, hlast⟩ := walk_concat hfront
    exact step?_eq_operand hlast hkind

end Automaton

end MiniC.Grammar
