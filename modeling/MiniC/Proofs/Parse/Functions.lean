import Mathlib.Algebra.GroupWithZero.Nat
import MiniC.Proofs.Parse.Session

/-!
# Functions in a row

A list that holds several functions is read call by call. What a call makes of a function does not
depend on what stands behind it, save that strict mode refuses that; and even then the function has
been consumed, so the next call finds the next function.

## The architecture

* **`Before`** is a parser between two functions, with the tokens that are still to come.
* **`Before.parseProgram`** is one call, and **`Before.afterCalls`** any number of them, up to the
  number of functions; **`Before.turn`** is the call that comes next.
* **`session_reads_functions_in_turn`** is the result for all calls of a session.
-/

namespace MiniC

open Grammar (DerivesProgram)

variable {settings : Settings} {strict : Bool} {front more : List Token} {program : Program}
  {functions : List (List Token × Program)} {parser : Parser}

namespace Parser

/-! ## One function -/

/-- A list is accepted to its last token if it is a program that the cap allows. Strict mode has no
part in that. -/
theorem outcome_eq_ok_iff : outcome settings front = (.ok program, front.length) ↔
    ∃ frames, DerivesProgram settings.dialect front program frames ∧
      ∀ limit ∈ settings.maxDepth, frames ≤ limit := by
  have hiff : outcome settings front = (.ok program, front.length) ↔ _ :=
    Prod.ext_iff.trans parseProgram_ok_iff
  rw [List.take_length] at hiff
  exact hiff.trans ⟨fun h => h.2.2, fun h => ⟨Nat.le_refl _, fun _ => rfl, h⟩⟩

/-- A list that is accepted to its last token is accepted in the other mode too. -/
theorem outcome_with_strict (h : outcome settings front = (.ok program, front.length))
    (strict : Bool) : outcome { settings with strict } front = (.ok program, front.length) := by
  have hderives := outcome_eq_ok_iff.1 h
  exact outcome_eq_ok_iff.2 hderives

theorem ne_nil_of_outcome_eq_ok (h : outcome settings front = (.ok program, front.length)) :
    front ≠ [] :=
  ne_nil_of_outcome (by rw [h]; exact nofun)

/-! ## Calls -/

/-- A parser that is not inside of any rule, and the tokens before it. -/
structure Before (settings : Settings) (rest : List Token) (parser : Parser) : Prop where
  settings_eq : parser.settings = settings
  depth_eq : parser.state.depth = 0
  rest_eq : parser.state.cursor.rest = rest

/-- A call consumes the function that comes next, in strict mode too. -/
theorem Before.parseProgram (h : parser.Before { settings with strict } (front ++ more))
    (hread : outcome settings front = (.ok program, front.length)) :
    parser.parseProgram.1 =
        conclude program.function (if strict then more.head? else none) ∧
      parser.parseProgram.2.position = parser.position + front.length ∧
      parser.parseProgram.2.Before { settings with strict } more := by
  have hne : parser.state.cursor.rest ≠ [] := by
    rw [h.rest_eq]
    exact List.append_ne_nil_of_left_ne_nil (ne_nil_of_outcome_eq_ok hread) more
  -- the call is that of a fresh parser on what remains, which begins with the function
  obtain ⟨hresult, hposition⟩ := parseProgram_of_rest parser h.depth_eq hne
  rw [h.settings_eq, h.rest_eq, outcome_append (outcome_with_strict hread strict)]
    at hresult hposition
  obtain ⟨hsettings, hahead⟩ := parseProgram_ahead parser
  refine ⟨hresult, hposition, hsettings.trans h.settings_eq, hahead.depth_eq.trans h.depth_eq, ?_⟩
  calc parser.parseProgram.2.state.cursor.rest
      = parser.state.cursor.toList.drop parser.parseProgram.2.position := by
        rw [← hahead.toList_eq]
        exact (Cursor.drop_position _).symm
    _ = parser.state.cursor.rest.drop front.length := by
        rw [hposition, ← List.drop_drop, ← parser.state.cursor.drop_position]
        rfl
    _ = more := by rw [h.rest_eq, List.drop_left]

/-- As many calls consume as many functions. -/
theorem Before.afterCalls (h : parser.Before { settings with strict } (functions.flatMap Prod.fst))
    (hread : ∀ function ∈ functions,
      outcome settings function.1 = (.ok function.2, function.1.length)) {calls : Nat}
    (hle : calls ≤ functions.length) :
    (Parser.afterCalls calls parser).position =
        parser.position + ((functions.take calls).map fun function => function.1.length).sum ∧
      (Parser.afterCalls calls parser).Before { settings with strict }
        ((functions.drop calls).flatMap Prod.fst) := by
  induction calls generalizing parser functions with
  | zero => exact ⟨rfl, h⟩
  | succ calls ih =>
    cases functions with
    | nil => exact absurd hle (Nat.not_succ_le_zero _)
    | cons function functions =>
      rw [List.flatMap_cons] at h
      obtain ⟨-, hposition, hnext⟩ := h.parseProgram (hread function List.mem_cons_self)
      obtain ⟨hposition', hlater⟩ := ih hnext
        (fun other hother => hread other (List.mem_cons_of_mem _ hother))
        (Nat.le_of_succ_le_succ hle)
      refine ⟨?_, hlater⟩
      rw [Parser.afterCalls, hposition', hposition, List.take_succ_cons, List.map_cons,
        List.sum_cons, Nat.add_assoc]

/-- A call has its turn when the functions before its own are consumed. -/
theorem Before.turn (h : parser.Before { settings with strict } (functions.flatMap Prod.fst))
    (hread : ∀ function ∈ functions,
      outcome settings function.1 = (.ok function.2, function.1.length)) {call : Nat}
    {function : List Token × Program} (hfunction : functions[call]? = some function) :
    (Parser.afterCalls call parser).parseProgram.1 = conclude function.2.function
        (if strict then ((functions.drop (call + 1)).flatMap Prod.fst).head? else none) ∧
      (Parser.afterCalls call parser).parseProgram.2.position = parser.position +
        ((functions.take (call + 1)).map fun function => function.1.length).sum := by
  obtain ⟨hlt, hget⟩ := List.getElem?_eq_some_iff.1 hfunction
  obtain ⟨-, hbefore⟩ := h.afterCalls hread (Nat.le_of_lt hlt)
  rw [List.drop_eq_getElem_cons hlt, hget, List.flatMap_cons] at hbefore
  obtain ⟨hresult, -⟩ := hbefore.parseProgram (hread function (List.mem_of_getElem? hfunction))
  obtain ⟨hposition, -⟩ := h.afterCalls hread (Nat.succ_le_of_lt hlt)
  rw [afterCalls_succ] at hposition
  exact ⟨hresult, hposition⟩

/-- Behind a function that is not the last one stands the return type of the next. -/
theorem exists_head_of_next (hread : ∀ function ∈ functions,
      outcome settings function.1 = (.ok function.2, function.1.length)) {call : Nat}
    {next : List Token × Program} (hnext : functions[call]? = some next) :
    ∃ first, next.1.head? = some first ∧ first.kind = .intKeyword ∧
      ((functions.drop call).flatMap Prod.fst).head? = some first := by
  obtain ⟨hlt, hget⟩ := List.getElem?_eq_some_iff.1 hnext
  obtain ⟨frames, hderives, -⟩ := outcome_eq_ok_iff.1 (hread next (List.mem_of_getElem? hnext))
  obtain ⟨first, hfirst, hkind⟩ := hderives.exists_head
  refine ⟨first, hfirst, hkind, ?_⟩
  rw [List.drop_eq_getElem_cons hlt, hget, List.flatMap_cons, List.head?_append, hfirst]
  rfl

/-- A parser that has consumed its whole list stays where it is. -/
theorem Before.at_end (h : parser.Before settings []) (hne : parser.state.cursor.toList ≠ [])
    (calls : Nat) :
    (Parser.afterCalls calls parser).parseProgram =
      (.error (.unexpectedEnd .returnType), parser) := by
  have hend := parseProgram_at_end parser hne h.rest_eq
  have hsettled : parser.Settled := ⟨_, hend⟩
  rw [hsettled.afterCalls_eq, hend]

theorem flatMap_ne_nil (hne : functions ≠ [])
    (hread : ∀ function ∈ functions,
      outcome settings function.1 = (.ok function.2, function.1.length)) :
    functions.flatMap Prod.fst ≠ [] := by
  obtain ⟨function, hfunction⟩ := List.exists_mem_of_ne_nil functions hne
  intro hnil
  exact ne_nil_of_outcome_eq_ok (hread function hfunction)
    (List.flatMap_eq_nil_iff.1 hnil function hfunction)

end Parser

end MiniC
