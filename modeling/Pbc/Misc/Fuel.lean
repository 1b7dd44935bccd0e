import Mathlib.Order.Lattice

/-!
# Computations with fuel

A computation that may run out of fuel ends with a result if it gives that result from some
amount of fuel on. Results of the parts of a computation make up the result of the whole.
-/

namespace Pbc.Misc

variable {ε α β : Type} {f : ℕ → Except ε α} {a : α}

/-- From some fuel on a computation gives one result. -/
def Ends (f : ℕ → Except ε α) (a : α) : Prop := ∃ k, ∀ fuel, k ≤ fuel → f fuel = .ok a

theorem Ends.of_eq (result : ∀ fuel, f fuel = .ok a) : Ends f a := ⟨0, fun fuel _ => result fuel⟩

/-- The first part of a computation ends, and what follows ends from its result on. -/
theorem Ends.bind {g : ℕ → α → Except ε β} {b : β} (first : Ends f a)
    (second : Ends (fun fuel => g fuel a) b) : Ends (fun fuel => f fuel >>= g fuel) b := by
  obtain ⟨k, first⟩ := first
  obtain ⟨l, second⟩ := second
  refine ⟨max k l, fun fuel enough => ?_⟩
  have result := first fuel (le_trans (le_max_left k l) enough)
  have result' := second fuel (le_trans (le_max_right k l) enough)
  simp only [result]
  exact result'

/-- One more unit of fuel does not matter. -/
theorem Ends.succ (ends : Ends (fun fuel => f (fuel + 1)) a) : Ends f a := by
  obtain ⟨k, ends⟩ := ends
  refine ⟨k + 1, fun fuel enough => ?_⟩
  obtain ⟨fuel, rfl⟩ := Nat.exists_eq_add_of_le' (Nat.le_of_add_left_le enough)
  exact ends fuel (Nat.le_of_add_le_add_right enough)

/-- A computation has one result. -/
theorem Ends.unique {b : α} (ends : Ends f a) (ends' : Ends f b) : a = b := by
  obtain ⟨k, ends⟩ := ends
  obtain ⟨l, ends'⟩ := ends'
  have result := ends (max k l) (le_max_left k l)
  rw [ends' (max k l) (le_max_right k l)] at result
  exact (Except.ok.inj result).symm

/-- A result comes from a result of the first part. -/
theorem bind_eq_ok {x : Except ε α} {g : α → Except ε β} {b : β} :
    x >>= g = .ok b ↔ ∃ a, x = .ok a ∧ g a = .ok b := by
  cases x with
  | error fault => exact iff_of_false nofun nofun
  | ok a => exact ⟨fun result => ⟨a, rfl, result⟩, fun ⟨_, same, result⟩ => Except.ok.inj same ▸ result⟩

end Pbc.Misc
