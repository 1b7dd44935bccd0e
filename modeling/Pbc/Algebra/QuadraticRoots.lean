import Mathlib.Tactic.FieldSimp
import Pbc.Algebra.Frobenius

/-!
# Squares in a quadratic extension

Over a finite field of odd order an element of `F(s)`, with `s^2` a nonresidue, is a square exactly
when its norm is a square of the base. A root of the norm gives two candidates for the square of
the first coordinate of a root, whose product is no square unless the second coordinate is zero.
-/

namespace Pbc.Algebra

variable {F : Type*} [Field F] {d x y w a : F}

/-- A nonzero square does not turn a nonresidue into a square. -/
theorem not_isSquare_mul {b c : F} (square : IsSquare b) (nonzero : b ≠ 0) (nonresidue : ¬IsSquare c) :
    ¬IsSquare (c * b) := by
  rintro ⟨t, product⟩
  obtain ⟨r, rfl⟩ := square
  have unit : r ≠ 0 := fun zero => nonzero (by rw [zero, zero_mul])
  apply nonresidue
  refine ⟨t / r, ?_⟩
  rw [div_mul_div_comm, ← product, mul_div_cancel_right₀ c nonzero]

/-- The product of two nonresidues of a finite field is a square. -/
theorem isSquare_mul_of_not [Fintype F] (two : (2 : F) ≠ 0) {b c : F} (left : ¬IsSquare b)
    (right : ¬IsSquare c) : IsSquare (b * c) := by
  have nonzero {b : F} (nonresidue : ¬IsSquare b) : b ≠ 0 := by
    rintro rfl
    exact nonresidue IsSquare.zero
  refine (FiniteField.isSquare_iff (ringChar_ne_two two) (mul_ne_zero (nonzero left) (nonzero right))).mpr ?_
  rw [mul_pow, pow_eq_neg_one_of_nonresidue two left, pow_eq_neg_one_of_nonresidue two right,
    neg_mul_neg, one_mul]

/-- The two candidates for the square of the first coordinate. -/
theorem half_mul_half (two : (2 : F) ≠ 0) (root : w * w = x * x - y * y * d) :
    (x + w) / 2 * ((x - w) / 2) = d * (y / 2 * (y / 2)) := by
  field_simp
  linear_combination -root

theorem half_ne_zero (nonresidue : ¬IsSquare d) (two : (2 : F) ≠ 0) (nonzero : y ≠ 0)
    (root : w * w = x * x - y * y * d) : (x + w) / 2 ≠ 0 := by
  have unit : d ≠ 0 := by
    rintro rfl
    exact nonresidue IsSquare.zero
  have half : y / 2 ≠ 0 := div_ne_zero nonzero two
  have product := half_mul_half two root
  intro zero
  rw [zero, zero_mul, eq_comm] at product
  exact mul_ne_zero unit (mul_ne_zero half half) product

/-- One candidate is a square. -/
theorem isSquare_half [Fintype F] (two : (2 : F) ≠ 0) (nonresidue : ¬IsSquare d) (nonzero : y ≠ 0)
    (root : w * w = x * x - y * y * d) (other : ¬IsSquare ((x + w) / 2)) :
    IsSquare ((x - w) / 2) := by
  have half : y / 2 ≠ 0 := div_ne_zero nonzero two
  by_contra none
  have square := isSquare_mul_of_not two other none
  rw [half_mul_half two root] at square
  exact not_isSquare_mul ⟨y / 2, rfl⟩ (mul_ne_zero half half) nonresidue square

/-- A root of a candidate is the first coordinate of a root. -/
theorem sq_of_half (two : (2 : F) ≠ 0) (nonresidue : ¬IsSquare d) (nonzero : y ≠ 0)
    (root : w * w = x * x - y * y * d) (half : a * a = (x + w) / 2) :
    (⟨a, y * (a + a)⁻¹⟩ * ⟨a, y * (a + a)⁻¹⟩ : QuadraticAlgebra F d 0) = ⟨x, y⟩ := by
  have unit : a ≠ 0 := by
    rintro rfl
    rw [zero_mul, eq_comm] at half
    exact half_ne_zero nonresidue two nonzero root half
  have double : a + a ≠ 0 := by
    rw [← two_mul]
    exact mul_ne_zero two unit
  have value : 2 * (a * a) = x + w := by
    rw [half]
    field_simp
  ext
  · rw [QuadraticAlgebra.re_mul, ← two_mul]
    field_simp
    linear_combination (2 * (a * a) - x + w) * value + root
  · rw [QuadraticAlgebra.im_mul, ← two_mul]
    field_simp
    ring

/-- The square of an element of the base. -/
theorem base_mul_self (c : F) : (⟨c, 0⟩ * ⟨c, 0⟩ : QuadraticAlgebra F d 0) = ⟨c * c, 0⟩ := by
  ext
  · rw [QuadraticAlgebra.re_mul]
    ring
  · rw [QuadraticAlgebra.im_mul]
    ring

/-- A square of the extension has a square norm; over a finite field the converse holds, and
elements of the base are squares. -/
theorem isSquare_iff_norm [Fintype F] (two : (2 : F) ≠ 0) (nonresidue : ¬IsSquare d)
    (e : QuadraticAlgebra F d 0) : IsSquare e ↔ IsSquare (e.re * e.re - e.im * e.im * d) := by
  constructor
  · rintro ⟨b, rfl⟩
    refine ⟨b.re * b.re - b.im * b.im * d, ?_⟩
    rw [QuadraticAlgebra.re_mul, QuadraticAlgebra.im_mul]
    ring
  · rintro ⟨w, norm⟩
    have root : w * w = e.re * e.re - e.im * e.im * d := norm.symm
    obtain ⟨x, y⟩ := e
    dsimp only at root
    by_cases zero : y = 0
    · subst zero
      by_cases square : IsSquare x
      · obtain ⟨c, rfl⟩ := square
        exact ⟨⟨c, 0⟩, (base_mul_self c).symm⟩
      · obtain ⟨c, product⟩ := isSquare_mul_of_not two square nonresidue
        have unit : d ≠ 0 := by
          rintro rfl
          exact nonresidue IsSquare.zero
        refine ⟨⟨0, c / d⟩, ?_⟩
        ext
        · rw [QuadraticAlgebra.re_mul]
          field_simp
          linear_combination product
        · rw [QuadraticAlgebra.im_mul]
          ring
    · by_cases square : IsSquare ((x + w) / 2)
      · obtain ⟨a, half⟩ := square
        exact ⟨_, (sq_of_half two nonresidue zero root half.symm).symm⟩
      · obtain ⟨a, half⟩ := isSquare_half two nonresidue zero root square
        have root' : -w * -w = x * x - y * y * d := by rw [neg_mul_neg, root]
        rw [sub_eq_add_neg] at half
        exact ⟨_, (sq_of_half two nonresidue zero root' half.symm).symm⟩

end Pbc.Algebra
