import Mathlib

/-!
# Sequencing in `Except`

How the success or failure of a sequence of fallible steps reads.
-/

namespace Library

universe u v

variable {ε : Type u} {α β : Type v} {x : Except ε α} {f : α → Except ε β} {a : α} {b : β} {e : ε}

theorem bind_ok : x >>= f = .ok b ↔ ∃ a, x = .ok a ∧ f a = .ok b := by
  cases x <;> simp [bind, Except.bind]

theorem bind_error : x >>= f = .error e ↔ x = .error e ∨ ∃ a, x = .ok a ∧ f a = .error e := by
  cases x <;> simp [bind, Except.bind]

theorem exists_of_map_eq_ok {g : α → β} (h : x.map g = .ok b) : ∃ a, x = .ok a ∧ g a = b := by
  cases x with
  | error e => cases h
  | ok a => exact ⟨a, rfl, Except.ok.inj h⟩

@[simp] theorem ok_bind : (.ok a : Except ε α) >>= f = f a := rfl
@[simp] theorem error_bind : (.error e : Except ε α) >>= f = .error e := rfl
@[simp] theorem pure_eq_ok : (pure a : Except ε α) = .ok a := rfl
@[simp] theorem throw_eq_error : (throw e : Except ε α) = .error e := rfl
@[simp] theorem map_ok (g : α → β) : g <$> (.ok a : Except ε α) = .ok (g a) := rfl
@[simp] theorem map_error (g : α → β) : g <$> (.error e : Except ε α) = .error e := rfl

end Library
