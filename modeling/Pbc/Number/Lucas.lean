import Mathlib.Algebra.Ring.Basic
import Mathlib.Tactic.LinearCombination
import Mathlib.Tactic.Ring
import Pbc.Algebra.Numerals

/-!
# Lucas sequences

The sequence `u^k + w^k` of two mutually inverse ring elements. Doubling and
adding an index give the steps of a ladder, and two combinations of neighbouring
terms recover the difference `u^k - w^k`.
-/

namespace Pbc.Number

variable {R : Type*} [CommRing R]

/-- The term `u^k + w^k`. -/
def lucasV (u w : R) (k : ℕ) : R := u ^ k + w ^ k

@[simp] theorem lucasV_zero (u w : R) : lucasV u w 0 = 2 := by
  simp only [lucasV, pow_zero]
  norm_num

@[simp] theorem lucasV_one (u w : R) : lucasV u w 1 = u + w := by
  simp only [lucasV, pow_one]

section Inverse

variable {u w : R} (inverse : u * w = 1)

include inverse

private theorem pow_mul_pow_eq_one (k : ℕ) : u ^ k * w ^ k = 1 := by
  rw [← mul_pow, inverse, one_pow]

theorem lucasV_two_mul (k : ℕ) : lucasV u w (2 * k) = lucasV u w k ^ 2 - 2 := by
  simp only [lucasV, two_mul, pow_add]
  linear_combination -2 * pow_mul_pow_eq_one inverse k

theorem lucasV_two_mul_add_one (k : ℕ) :
    lucasV u w (2 * k + 1) = lucasV u w k * lucasV u w (k + 1) - (u + w) := by
  simp only [lucasV, two_mul, pow_add, pow_one]
  linear_combination -(u + w) * pow_mul_pow_eq_one inverse k

/-- The difference of the powers, from a term and the one before it. -/
theorem lucasV_previous (k : ℕ) :
    (u + w) * lucasV u w (k + 1) - 2 * lucasV u w k = (u - w) * (u ^ (k + 1) - w ^ (k + 1)) := by
  simp only [lucasV, pow_succ]
  linear_combination 2 * (u ^ k + w ^ k) * inverse

end Inverse

/-- The difference of the powers, from a term and the one after it. -/
theorem lucasV_next (u w : R) (k : ℕ) :
    2 * lucasV u w (k + 1) - (u + w) * lucasV u w k = (u - w) * (u ^ k - w ^ k) := by
  simp only [lucasV, pow_succ]
  ring

end Pbc.Number
