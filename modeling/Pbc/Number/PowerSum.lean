import Mathlib.Algebra.Ring.Divisibility.Basic
import Mathlib.Tactic.LinearCombination
import Mathlib.Tactic.Ring
import Pbc.Algebra.Numerals

/-!
# Sums of powers of two numbers

The sums `α^n + β^n` of two numbers with the sum `t` and the product `q`. If these are the
roots of Frobenius of a curve, `q^n + 1` less the sum is the order of the curve over the
extension of degree `n`.
-/

namespace Pbc.Number

variable {R : Type*} [CommRing R]

/-- The sum of the `n`-th powers of two numbers with the sum `t` and the product `q`. -/
def powerSum (q t : R) : ℕ → R
  | 0 => 2
  | 1 => t
  | n + 2 => t * powerSum q t (n + 1) - q * powerSum q t n

/-- The order of a curve over the extension of degree `n`, from the field and the trace. -/
def extensionOrder (q t : R) (n : ℕ) : R := q ^ n + 1 - powerSum q t n

variable (q t : R)

theorem powerSum_add_two (n : ℕ) :
    powerSum q t (n + 2) = t * powerSum q t (n + 1) - q * powerSum q t n := by
  rw [powerSum]

/-- A quadratic form in neighbouring sums. -/
theorem powerSum_form (n : ℕ) :
    powerSum q t (n + 1) ^ 2 - t * powerSum q t n * powerSum q t (n + 1) +
      q * powerSum q t n ^ 2 = q ^ n * (4 * q - t ^ 2) := by
  induction n with
  | zero =>
    simp only [powerSum]
    ring
  | succ n ih =>
    rw [powerSum_add_two, pow_succ]
    linear_combination q * ih

/-- The sums of twice an index and of the one after it. -/
theorem powerSum_double (n : ℕ) :
    powerSum q t (2 * n) = powerSum q t n ^ 2 - 2 * q ^ n ∧
      powerSum q t (2 * n + 1) = powerSum q t n * powerSum q t (n + 1) - q ^ n * t := by
  induction n with
  | zero =>
    simp only [powerSum]
    constructor <;> ring
  | succ n ih =>
    obtain ⟨even, odd⟩ := ih
    have next : powerSum q t (2 * (n + 1)) = powerSum q t (n + 1) ^ 2 - 2 * q ^ (n + 1) := by
      rw [mul_add, mul_one, powerSum_add_two, odd, even, pow_succ]
      linear_combination -powerSum_form q t n
    refine ⟨next, ?_⟩
    have after : powerSum q t (2 * (n + 1) + 1) =
        t * powerSum q t (2 * (n + 1)) - q * powerSum q t (2 * n + 1) :=
      powerSum_add_two q t (2 * n + 1)
    rw [after, next, odd, powerSum_add_two, pow_succ]
    ring

/-- The order over an even extension has two factors. -/
theorem extensionOrder_two_mul (n : ℕ) :
    extensionOrder q t (2 * n) =
      extensionOrder q t n * (2 * (q ^ n + 1) - extensionOrder q t n) := by
  rw [extensionOrder, extensionOrder, (powerSum_double q t n).1, Nat.mul_comm, pow_mul]
  ring

/-- The order of the curve divides its orders over the extensions. -/
theorem dvd_extensionOrder (n : ℕ) : q + 1 - t ∣ extensionOrder q t n := by
  induction n using Nat.twoStepInduction with
  | zero =>
    refine ⟨0, ?_⟩
    simp only [extensionOrder, powerSum]
    ring
  | one =>
    refine ⟨1, ?_⟩
    simp only [extensionOrder, powerSum]
    ring
  | more n first second =>
    obtain ⟨c, equal⟩ := first
    obtain ⟨d, equal'⟩ := second
    refine ⟨t * d - q * c + q ^ (n + 1) + 1, ?_⟩
    simp only [extensionOrder] at equal equal' ⊢
    rw [powerSum_add_two]
    linear_combination t * equal' - q * equal

/-- Over twice the degree of an extension that has roots of unity of the order of a curve, the
curve has the square of that order. -/
theorem sq_dvd_extensionOrder {n : ℕ} (roots : q + 1 - t ∣ q ^ n + 1) :
    (q + 1 - t) ^ 2 ∣ extensionOrder q t (2 * n) := by
  rw [extensionOrder_two_mul, sq]
  have other : q + 1 - t ∣ 2 * (q ^ n + 1) - extensionOrder q t n :=
    dvd_sub (roots.mul_left 2) (dvd_extensionOrder q t n)
  exact mul_dvd_mul (dvd_extensionOrder q t n) other

end Pbc.Number
