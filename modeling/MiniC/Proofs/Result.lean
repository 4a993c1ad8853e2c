/-!
# Results of a mapped computation

The lexer and the parser answer with `Except`. What a mapped answer says about the answer itself.
-/

namespace MiniC.Result

variable {ε δ α β : Type} {result : Except ε α} {f : α → β} {g : ε → δ} {error : ε} {reason : δ}
  {a : α} {b : β}

theorem map_eq_ok_iff : result.map f = .ok b ↔ ∃ a, result = .ok a ∧ f a = b := by
  cases result <;> simp [Except.map]

theorem map_eq_error_iff : result.map f = .error error ↔ result = .error error := by
  cases result <;> simp [Except.map]

theorem mapError_eq_ok_iff : result.mapError g = .ok a ↔ result = .ok a := by
  cases result with
  | ok value =>
    show (Except.ok value : Except δ α) = .ok a ↔ _
    simp
  | error error =>
    show (Except.error (g error) : Except δ α) = .ok a ↔ _
    simp

theorem mapError_eq_error_iff :
    result.mapError g = .error reason ↔ ∃ error, result = .error error ∧ g error = reason := by
  cases result with
  | ok value =>
    show (Except.ok value : Except δ α) = .error reason ↔ _
    simp
  | error error =>
    show (Except.error (g error) : Except δ α) = .error reason ↔ _
    simp

end MiniC.Result
