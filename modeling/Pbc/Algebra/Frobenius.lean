import Mathlib.Algebra.BigOperators.Ring.Nat
import Mathlib.Algebra.QuadraticAlgebra.Basic
import Mathlib.FieldTheory.Finite.Basic
import Mathlib.Tactic.LinearCombination
import Pbc.Algebra.Numerals

/-!
# Frobenius on quadratic extensions

Raising to the power `q` on `L(s)`, with `s^2` a nonresidue of the field of `q`
elements under `L`: the power acts on both coordinates and changes the sign of
the second. Over an extension of odd degree the nonresidue stays one, and the
power of that degree conjugates.
-/

namespace Pbc.Algebra

variable {F : Type*} [Field F] [Fintype F]

omit [Fintype F] in
theorem ringChar_ne_two (two : (2 : F) ≠ 0) : ringChar F ≠ 2 := by
  intro even
  apply two
  have zero := ringChar.Nat.cast_ringChar (R := F)
  rw [even] at zero
  exact_mod_cast zero

theorem odd_card (two : (2 : F) ≠ 0) : Fintype.card F % 2 = 1 :=
  FiniteField.odd_card_of_char_ne_two (ringChar_ne_two two)

/-- A field of odd size does not have characteristic two. -/
theorem two_ne_zero_of_odd_card (odd : Fintype.card F % 2 = 1) : (2 : F) ≠ 0 := by
  apply Ring.two_ne_zero
  intro even
  rw [FiniteField.even_card_iff_char_two] at even
  omega

/-- Euler's criterion for a nonresidue. -/
theorem pow_eq_neg_one_of_nonresidue (two : (2 : F) ≠ 0) {d : F} (nonresidue : ¬IsSquare d) :
    d ^ (Fintype.card F / 2) = -1 := by
  have nonzero : d ≠ 0 := by
    rintro rfl
    exact nonresidue (IsSquare.zero)
  have odd := ringChar_ne_two two
  rcases FiniteField.pow_dichotomy odd nonzero with one | minus
  · exact absurd ((FiniteField.isSquare_iff odd nonzero).mpr one) nonresidue
  · exact minus

/-- A nonresidue stays one in an extension of odd degree. -/
theorem sq_ne_of_odd_extension {L : Type*} [Field L] [Fintype L] [Algebra F L]
    (two : (2 : F) ≠ 0) {d : F} (nonresidue : ¬IsSquare d) {n : ℕ} (odd : Odd n)
    (card : Fintype.card L = Fintype.card F ^ n) (r : L) : r ^ 2 ≠ algebraMap F L d := by
  intro square
  have nonzero : r ≠ 0 := by
    rintro rfl
    apply nonresidue
    have zero : algebraMap F L d = 0 := by rw [← square, zero_pow two_ne_zero]
    rw [(map_eq_zero _).mp zero]
    exact IsSquare.zero
  have half : Fintype.card F = 2 * (Fintype.card F / 2) + 1 := by
    have := odd_card two
    omega
  have order := FiniteField.pow_card_sub_one_eq_one r nonzero
  have geometric : Fintype.card F ^ n - 1 =
      2 * (Fintype.card F / 2) * ∑ i ∈ Finset.range n, Fintype.card F ^ i := by
    have sum := Nat.geomSum_eq (m := Fintype.card F) Fintype.one_lt_card n
    rw [show 2 * (Fintype.card F / 2) = Fintype.card F - 1 by omega, sum,
      Nat.mul_div_cancel' (Nat.sub_one_dvd_pow_sub_one _ _)]
  have terms : Odd (∑ i ∈ Finset.range n, Fintype.card F ^ i) := by
    rw [Finset.odd_sum_iff_odd_card_odd]
    have every : {i ∈ Finset.range n | Odd (Fintype.card F ^ i)} = Finset.range n :=
      Finset.filter_true_of_mem fun i _ => (Nat.odd_iff.mpr (odd_card two)).pow
    rw [every, Finset.card_range]
    exact odd
  rw [card, geometric, pow_mul, pow_mul, square, ← map_pow,
    pow_eq_neg_one_of_nonresidue two nonresidue, map_neg, map_one, terms.neg_one_pow] at order
  have twice : (algebraMap F L 2) = 0 := by
    rw [map_ofNat]
    linear_combination -order
  exact two ((map_eq_zero _).mp twice)

section Quadratic

variable {L : Type*} [CommRing L] [Algebra F L] {d : F}

/-- The square root has the power minus itself. -/
private theorem omega_pow_card (two : (2 : F) ≠ 0) (nonresidue : ¬IsSquare d) :
    (⟨0, 1⟩ : QuadraticAlgebra L (algebraMap F L d) 0) ^ Fintype.card F = ⟨0, -1⟩ := by
  have square : (⟨0, 1⟩ : QuadraticAlgebra L (algebraMap F L d) 0) ^ 2 =
      algebraMap L _ (algebraMap F L d) := by
    rw [sq]
    ext
    · simp
    · simp
  have half : Fintype.card F = 2 * (Fintype.card F / 2) + 1 := by
    have := odd_card two
    omega
  rw [half, pow_succ, pow_mul, square, ← map_pow, ← map_pow,
    pow_eq_neg_one_of_nonresidue two nonresidue]
  ext
  · simp
  · simp

/-- The power `q` of an element of the quadratic extension. -/
theorem quadratic_pow_card (two : (2 : F) ≠ 0) (nonresidue : ¬IsSquare d)
    (z : QuadraticAlgebra L (algebraMap F L d) 0) :
    z ^ Fintype.card F = ⟨z.re ^ Fintype.card F, -z.im ^ Fintype.card F⟩ := by
  have split : z = algebraMap L _ z.re + algebraMap L _ z.im * ⟨0, 1⟩ := by
    ext
    · simp
    · simp
  have frobenius (w : QuadraticAlgebra L (algebraMap F L d) 0) :
      w ^ Fintype.card F = FiniteField.frobeniusAlgHom F _ w := by
    rw [FiniteField.coe_frobeniusAlgHom]
  rw [frobenius]
  conv_lhs => rw [split]
  rw [map_add, map_mul, ← frobenius, ← frobenius, ← frobenius, omega_pow_card two nonresidue,
    ← map_pow, ← map_pow]
  ext
  · simp only [QuadraticAlgebra.re_add, QuadraticAlgebra.re_mul, QuadraticAlgebra.algebraMap_re,
      QuadraticAlgebra.algebraMap_im]
    ring
  · simp only [QuadraticAlgebra.im_add, QuadraticAlgebra.im_mul, QuadraticAlgebra.algebraMap_re,
      QuadraticAlgebra.algebraMap_im]
    ring

/-- Over an extension of odd degree the power of that degree conjugates. -/
theorem quadratic_pow_card_pow (two : (2 : F) ≠ 0) (nonresidue : ¬IsSquare d) {n : ℕ} (odd : Odd n)
    (fixed : ∀ x : L, x ^ Fintype.card F ^ n = x)
    (z : QuadraticAlgebra L (algebraMap F L d) 0) : z ^ Fintype.card F ^ n = star z := by
  have iterate (k : ℕ) : z ^ Fintype.card F ^ k =
      ⟨z.re ^ Fintype.card F ^ k, (-1) ^ k * z.im ^ Fintype.card F ^ k⟩ := by
    induction k with
    | zero =>
      ext
      · simp
      · simp
    | succ k ih =>
      have sign : ((-1 : L) ^ k) ^ Fintype.card F = (-1) ^ k := by
        rw [← pow_mul, mul_comm, pow_mul, (Nat.odd_iff.mpr (odd_card two)).neg_one_pow]
      rw [pow_succ, pow_mul, ih, quadratic_pow_card two nonresidue]
      ext
      · rw [← pow_mul]
      · simp only
        rw [mul_pow, sign, ← pow_mul]
        ring
  rw [iterate, fixed, fixed, odd.neg_one_pow]
  ext
  · simp
  · simp

end Quadratic

end Pbc.Algebra
