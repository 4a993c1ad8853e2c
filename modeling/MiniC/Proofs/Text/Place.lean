import MiniC.Text.Location

/-!
# Places, counted in the text

`Location.after` walks over a text. Where the walk starts at the first character, the same place
can be counted in the text afterwards: one line for every newline, one column for every character
behind the last of them. Every character leads to a later place, so two prefixes of a text that
lead to the same place are the same.
-/

namespace MiniC.Location

/-- The place behind the first part of a text: its line and its column, both counted from one. -/
def behind (text : List Char) : Location where
  line := 1 + text.count '\n'
  column := 1 + (text.reverse.takeWhile (· != '\n')).length

theorem behind_nil : behind [] = {} := rfl

/-- One more character moves the counted place as it moves a walk. A newline starts the count of
columns again. -/
theorem behind_append_singleton (text : List Char) (c : Char) :
    behind (text ++ [c]) = (behind text).advance c := by
  unfold behind
  by_cases hc : c = '\n'
  · subst hc
    simp [Nat.add_assoc]
  · simp [advance_of_ne, hc, Nat.add_assoc]

/-- **Walking and counting agree.** Behind `a` the walk over `b` leads to the place that is counted
for both. -/
theorem after_behind (a b : List Char) : (behind a).after b = behind (a ++ b) := by
  induction b generalizing a with
  | nil => rw [after_nil, List.append_nil]
  | cons c b ih =>
    rw [after_cons, ← behind_append_singleton, ih, List.append_assoc, List.singleton_append]

/-! ## The order of places -/

/-- A place comes before another: on an earlier line, or further left on the same one. -/
def Before (l m : Location) : Prop :=
  l.line < m.line ∨ l.line = m.line ∧ l.column < m.column

instance (l m : Location) : Decidable (l.Before m) :=
  inferInstanceAs (Decidable (_ ∨ _))

variable {l m n : Location} {a b rest rest' : List Char}

theorem Before.irrefl (l : Location) : ¬ l.Before l := by
  unfold Before
  omega

/-- Places are compared like words, by their lines first. -/
theorem Before.trans (hlm : l.Before m) (hmn : m.Before n) : l.Before n := by
  unfold Before at *
  omega

/-- Every character leads to a later place: further right, or onto the next line. -/
theorem before_advance (l : Location) (c : Char) : l.Before (l.advance c) := by
  by_cases hc : c = '\n'
  · subst hc
    exact .inl (Nat.lt_succ_self _)
  · rw [advance_of_ne hc]
    exact .inr ⟨rfl, Nat.lt_succ_self _⟩

theorem before_after (h : a ≠ []) (l : Location) : l.Before (l.after a) := by
  induction a generalizing l with
  | nil => exact absurd rfl h
  | cons c a ih =>
    -- every character leads further, so the first one alone decides
    have hfirst := before_advance l c
    cases a with
    | nil => exact hfirst
    | cons d a => exact hfirst.trans (ih (List.cons_ne_nil d a) _)

/-- A walk that comes back to where it started has gone over nothing. -/
theorem eq_nil_of_after_eq (h : l.after a = l) : a = [] := by
  by_cases hne : a = []
  · exact hne
  · have hbefore := before_after hne l
    rw [h] at hbefore
    exact absurd hbefore (Before.irrefl l)

/-- A place is reached by one prefix of a text only. -/
theorem eq_of_after_eq (htext : a ++ rest = b ++ rest') (hplace : l.after a = l.after b) :
    a = b := by
  rcases List.append_eq_append_iff.1 htext with ⟨between, rfl, -⟩ | ⟨between, rfl, -⟩
  · rw [after_append] at hplace
    rw [eq_nil_of_after_eq hplace.symm, List.append_nil]
  · rw [after_append] at hplace
    rw [eq_nil_of_after_eq hplace, List.append_nil]

end MiniC.Location
