import Pbc.Arith.FieldQuadratic
import Pbc.Gmp.Mpz
import Pbc.Number.Lucas

/-!
# Powers of unitary elements

An element of norm one of a quadratic extension is raised to a power through the
Lucas sequence of its trace. The ladder runs in the base; a division by the
discriminant recovers the second coordinate. The routine for even exponents
belongs to the curves of embedding degree two, the one for odd exponents to those
of degree six, where the division ends the program when the discriminant is zero.
-/

open Pbc.Arith Pbc.Gmp Pbc.Number

namespace Pbc.Ecc

section Operations

/-- The loop of `lucas_odd` and `lucas_even` from bit `j` down; the last bit is
taken as zero. -/
def lucasLoop {K : Type*} [CommRing K] [FieldMethods K] (t0 t1 : K) (cofactor : ℕ) :
    ℕ → K → K → K × K
  | 0, v0, v1 =>
      let v1 := v0 * v1
      let v1 := v1 - t1
      let v0 := FieldMethods.square v0
      let v0 := v0 - t0
      (v0, v1)
  | j + 1, v0, v1 =>
      if mpzTstbit cofactor (j + 1) then
        let v0 := v0 * v1
        let v0 := v0 - t1
        let v1 := FieldMethods.square v1
        let v1 := v1 - t0
        lucasLoop t0 t1 cofactor j v0 v1
      else
        let v1 := v0 * v1
        let v1 := v1 - t1
        let v0 := FieldMethods.square v0
        let v0 := v0 - t0
        lucasLoop t0 t1 cofactor j v0 v1

/-- `lucas_odd` of the curves of embedding degree two. -/
def lucasOdd {F : Type*} [Field F] [FpMethods F] (inn : FiData F) (cofactor : ℕ) : FiData F :=
  let t0 : F := 2
  let t1 := inn.re + inn.re
  let (v0, v1) := lucasLoop t0 t1 cofactor (mpzSizeinbase2 cofactor - 1) t0 t1
  let in0 := v0 * t1
  let v1 := v1 + v1
  let v1 := v1 - in0
  let t1 := t1 * t1
  let t1 := t1 - t0
  let t1 := t1 - t0
  let v1 := zpDiv v1 t1
  let v0 := zpHalve v0
  ⟨v0, v1 * inn.im⟩

/-- `lucas_even` of the curves of embedding degree six. -/
def lucasEven {K : Type*} [CommRing K] [FieldMethods K] {nqr : K} (inn : FqData nqr)
    (cofactor : ℕ) : Except Exit (FqData nqr) := do
  let t0 : K := 2
  let t1 := FieldMethods.double inn.re
  let (v0, v1) := lucasLoop t0 t1 cofactor (mpzSizeinbase2 cofactor - 1) t0 t1
  let v0 := FieldMethods.double v0
  let in0 := t1 * v1
  let in0 := in0 - v0
  let t1 := FieldMethods.square t1
  let t1 := t1 - t0
  let t1 := t1 - t0
  let v0 ← genericHalve v1
  let v1 ← genericDiv in0 t1
  return ⟨v0, v1 * inn.im⟩

end Operations

section Ladder

variable {K R : Type*} [CommRing K] [FieldMethods K] [CommRing R]

/-- The ladder reaches the two terms at the exponent with a zero last bit. -/
theorem lucasLoop_spec (φ : K →+* R) {u w : R} (inverse : u * w = 1) {t1 : K}
    (trace : φ t1 = u + w) (cofactor j : ℕ) {v0 v1 : K}
    (low : φ v0 = lucasV u w (cofactor >>> (j + 1)))
    (high : φ v1 = lucasV u w (cofactor >>> (j + 1) + 1)) :
    φ (lucasLoop 2 t1 cofactor j v0 v1).1 = lucasV u w (2 * (cofactor >>> 1)) ∧
      φ (lucasLoop 2 t1 cofactor j v0 v1).2 = lucasV u w (2 * (cofactor >>> 1) + 1) := by
  have double (v : K) (m : ℕ) (value : φ v = lucasV u w m) :
      φ (FieldMethods.square v - 2) = lucasV u w (2 * m) := by
    rw [FieldMethods.square_eq, map_sub, map_mul, map_ofNat, value, lucasV_two_mul inverse, sq]
  have add (v v' : K) (m : ℕ) (value : φ v = lucasV u w m) (next : φ v' = lucasV u w (m + 1)) :
      φ (v * v' - t1) = lucasV u w (2 * m + 1) := by
    rw [map_sub, map_mul, value, next, trace, lucasV_two_mul_add_one inverse]
  induction j generalizing v0 v1 with
  | zero => exact ⟨double v0 _ low, add v0 v1 _ low high⟩
  | succ j ih =>
    have append : cofactor >>> (j + 1) =
        2 * (cofactor >>> (j + 1 + 1)) + (mpzTstbit cofactor (j + 1)).toNat :=
      shiftRight_eq_append cofactor (j + 1)
    rw [lucasLoop]
    cases bit : mpzTstbit cofactor (j + 1) with
    | true =>
      rw [if_pos rfl]
      rw [bit, Bool.toNat_true] at append
      apply ih
      · rw [append]
        exact add v0 v1 _ low high
      · rw [append, show 2 * (cofactor >>> (j + 1 + 1)) + 1 + 1 =
          2 * (cofactor >>> (j + 1 + 1) + 1) by ring]
        exact double v1 _ high
    | false =>
      rw [if_neg Bool.false_ne_true]
      rw [bit, Bool.toNat_false, add_zero] at append
      apply ih
      · rw [append]
        exact double v0 _ low
      · rw [append]
        exact add v0 v1 _ low high

/-- The ladder from its start. -/
theorem lucasLoop_start (φ : K →+* R) {u w : R} (inverse : u * w = 1) {t1 : K}
    (trace : φ t1 = u + w) (cofactor : ℕ) :
    φ (lucasLoop 2 t1 cofactor (mpzSizeinbase2 cofactor - 1) 2 t1).1 =
        lucasV u w (2 * (cofactor >>> 1)) ∧
      φ (lucasLoop 2 t1 cofactor (mpzSizeinbase2 cofactor - 1) 2 t1).2 =
        lucasV u w (2 * (cofactor >>> 1) + 1) := by
  have top : cofactor >>> (mpzSizeinbase2 cofactor - 1 + 1) = 0 := by
    rw [mpzSizeinbase2, Nat.add_sub_cancel, Nat.shiftRight_eq_zero cofactor _ Nat.lt_log2_self]
  apply lucasLoop_spec φ inverse trace
  · rw [top, lucasV_zero, map_ofNat]
  · rw [top, zero_add, lucasV_one, trace]

end Ladder

section Unitary

variable {K : Type*} [Field K] {nqr : K}

/-- The conjugate of an element of norm one is its inverse. -/
theorem mul_star_eq_one {u : FqData nqr} (unitary : u.re * u.re - u.im * u.im * nqr = 1) :
    u * star u = 1 := by
  ext
  · simp only [QuadraticAlgebra.re_mul, QuadraticAlgebra.re_star, QuadraticAlgebra.im_star,
      QuadraticAlgebra.re_one]
    linear_combination unitary
  · simp only [QuadraticAlgebra.im_mul, QuadraticAlgebra.re_star, QuadraticAlgebra.im_star,
      QuadraticAlgebra.im_one]
    ring

/-- The terms of the sequence are twice the first coordinates of the powers. -/
theorem lucasV_star (u : FqData nqr) (k : ℕ) :
    lucasV u (star u) k = algebraMap K (FqData nqr) (2 * (u ^ k).re) := by
  rw [lucasV, ← star_pow]
  ext
  · simp only [QuadraticAlgebra.re_add, QuadraticAlgebra.re_star, QuadraticAlgebra.algebraMap_re]
    ring
  · simp only [QuadraticAlgebra.im_add, QuadraticAlgebra.im_star, QuadraticAlgebra.algebraMap_im]
    ring

/-- The difference of the powers is twice the second coordinate. -/
private theorem pow_sub_star_pow (u : FqData nqr) (k : ℕ) :
    u ^ k - star u ^ k = ⟨0, 2 * (u ^ k).im⟩ := by
  rw [← star_pow]
  ext
  · simp only [QuadraticAlgebra.re_sub, QuadraticAlgebra.re_star]
    ring
  · simp only [QuadraticAlgebra.im_sub, QuadraticAlgebra.im_star]
    ring

private theorem sub_star_mul_pow_sub (u : FqData nqr) (k : ℕ) :
    ((u - star u) * (u ^ k - star u ^ k)).re = 4 * nqr * u.im * (u ^ k).im := by
  have first := pow_sub_star_pow u 1
  rw [pow_one, pow_one] at first
  rw [first, pow_sub_star_pow u k]
  simp only [QuadraticAlgebra.re_mul]
  ring

/-- The trace of an element. -/
private theorem add_star (u : FqData nqr) :
    u + star u = algebraMap K (FqData nqr) (u.re + u.re) := by
  have first := lucasV_star u 1
  rwa [lucasV_one, pow_one, two_mul] at first

/-- An element of the field that is a product of two differences. -/
private theorem eq_of_terms {u : FqData nqr} {k : ℕ} {c : K}
    (identity : algebraMap K (FqData nqr) c = (u - star u) * (u ^ k - star u ^ k)) :
    c = 4 * nqr * u.im * (u ^ k).im := by
  have first := congrArg QuadraticAlgebra.re identity
  rwa [sub_star_mul_pow_sub, QuadraticAlgebra.algebraMap_re] at first

/-- An element with no second coordinate has powers without one. -/
private theorem pow_im_eq_zero {u : FqData nqr} (real : u.im = 0) (k : ℕ) : (u ^ k).im = 0 := by
  have base : u = algebraMap K (FqData nqr) u.re := by
    ext
    · rfl
    · exact real
  rw [base, ← map_pow, QuadraticAlgebra.algebraMap_im]

/-- Two neighbouring terms give the second coordinate. -/
theorem lucas_next (u : FqData nqr) (k : ℕ) :
    2 * (u ^ (k + 1)).re + 2 * (u ^ (k + 1)).re - 2 * (u ^ k).re * (u.re + u.re) =
      4 * nqr * u.im * (u ^ k).im := by
  apply eq_of_terms
  rw [← lucasV_next, lucasV_star, lucasV_star, add_star]
  simp only [map_sub, map_add, map_mul, map_ofNat]
  ring

section Terms

variable [FieldMethods K] {u : FqData nqr} (unitary : u.re * u.re - u.im * u.im * nqr = 1)
  (cofactor : ℕ)

include unitary

/-- The two values of the ladder on an element of norm one. -/
theorem lucasLoop_unitary :
    (lucasLoop 2 (u.re + u.re) cofactor (mpzSizeinbase2 cofactor - 1) 2 (u.re + u.re)).1 =
        (2 : K) * (u ^ (2 * (cofactor >>> 1))).re ∧
      (lucasLoop 2 (u.re + u.re) cofactor (mpzSizeinbase2 cofactor - 1) 2 (u.re + u.re)).2 =
        (2 : K) * (u ^ (2 * (cofactor >>> 1) + 1)).re := by
  obtain ⟨low, high⟩ := lucasLoop_start _ (mul_star_eq_one unitary) (add_star u).symm cofactor
  rw [lucasV_star] at low high
  exact ⟨QuadraticAlgebra.algebraMap_injective low, QuadraticAlgebra.algebraMap_injective high⟩

omit [FieldMethods K] in
/-- So do a term and the one before it. -/
theorem lucas_previous (k : ℕ) :
    (u.re + u.re) * (2 * (u ^ (k + 1)).re) - (2 * (u ^ k).re + 2 * (u ^ k).re) =
      4 * nqr * u.im * (u ^ (k + 1)).im := by
  apply eq_of_terms
  rw [← lucasV_previous (mul_star_eq_one unitary), lucasV_star, lucasV_star, add_star]
  simp only [map_sub, map_add, map_mul, map_ofNat]
  ring

omit [FieldMethods K] in
/-- The discriminant of the sequence. -/
theorem lucas_discriminant :
    (u.re + u.re) * (u.re + u.re) - 2 - 2 = 4 * nqr * u.im * u.im := by
  linear_combination 4 * unitary

end Terms

/-- The discriminant of an element with a second coordinate is not zero. -/
theorem discriminant_ne_zero (two : (2 : K) ≠ 0) {b : K} (residue : nqr ≠ 0) (imaginary : b ≠ 0) :
    4 * nqr * b * b ≠ 0 := by
  have four : (4 : K) = 2 * 2 := by norm_num
  rw [four]
  exact mul_ne_zero (mul_ne_zero (mul_ne_zero (mul_ne_zero two two) residue) imaginary) imaginary

/-- The numerator of the ladder over the discriminant gives the second coordinate. -/
theorem div_discriminant_mul {u z : FqData nqr} (nonzero : 4 * nqr * u.im * u.im ≠ 0) {n : K}
    (numerator : n = 4 * nqr * u.im * z.im) : n / (4 * nqr * u.im * u.im) * u.im = z.im := by
  rw [div_mul_eq_mul_div, div_eq_iff nonzero, numerator]
  ring

/-- The two values that the routines end with are the coordinates of a power. -/
theorem coordinates_of_quotient (two : (2 : K) ≠ 0) {u z : FqData nqr}
    (nonzero : 4 * nqr * u.im * u.im ≠ 0) {n : K} (numerator : n = 4 * nqr * u.im * z.im) :
    (⟨2 * z.re / 2, n / (4 * nqr * u.im * u.im) * u.im⟩ : FqData nqr) = z := by
  ext
  · exact mul_div_cancel_left₀ _ two
  · exact div_discriminant_mul nonzero numerator

/-- `lucas_odd` raises an element of norm one to an even power. -/
theorem lucasOdd_eq {F : Type*} [Field F] [FpMethods F] (two : (2 : F) ≠ 0) {u : FiData F}
    (unitary : u.re * u.re + u.im * u.im = 1) {cofactor : ℕ} (even : Even cofactor) :
    lucasOdd u cofactor = u ^ cofactor := by
  have unitary' : u.re * u.re - u.im * u.im * -1 = 1 := by linear_combination unitary
  have exponent : 2 * (cofactor >>> 1) = cofactor := by
    rw [Nat.shiftRight_one]
    exact Nat.two_mul_div_two_of_even even
  obtain ⟨low, high⟩ := lucasLoop_unitary unitary' cofactor
  rw [exponent] at low high
  have numerator := lucas_next u cofactor
  have denominator := lucas_discriminant unitary'
  simp only [lucasOdd, low, high, zpHalve_eq two]
  ext
  · exact mul_div_cancel_left₀ _ two
  · change zpDiv _ _ * u.im = _
    by_cases real : u.im = 0
    · rw [real, mul_zero, pow_im_eq_zero real]
    · have nonzero : (4 : F) * -1 * u.im * u.im ≠ 0 :=
        discriminant_ne_zero two (neg_ne_zero.mpr one_ne_zero) real
      rw [denominator, zpDiv_eq _ nonzero]
      exact div_discriminant_mul nonzero numerator

section Even

variable [FieldMethods K] [InvertsNonzero K]

/-- `lucas_even` raises an element of norm one to an odd power, unless its second
coordinate is zero. -/
theorem lucasEven_ok (two : (2 : K) ≠ 0) (residue : nqr ≠ 0) {u : FqData nqr}
    (unitary : u.re * u.re - u.im * u.im * nqr = 1) {cofactor : ℕ} (odd : Odd cofactor)
    (imaginary : u.im ≠ 0) : lucasEven u cofactor = .ok (u ^ cofactor) := by
  have exponent : 2 * (cofactor >>> 1) + 1 = cofactor := (odd_eq_append odd).symm
  obtain ⟨low, high⟩ := lucasLoop_unitary unitary cofactor
  have numerator := lucas_previous unitary (2 * (cofactor >>> 1))
  rw [exponent] at high numerator
  have denominator := lucas_discriminant unitary
  have nonzero : 4 * nqr * u.im * u.im ≠ 0 := discriminant_ne_zero two residue imaginary
  simp only [lucasEven, FieldMethods.double_eq, FieldMethods.square_eq, low, high,
    genericHalve_ok two, denominator, genericDiv_ok _ nonzero]
  exact congrArg Except.ok (coordinates_of_quotient two nonzero numerator)

/-- With second coordinate zero the discriminant is zero, and its inversion
decides the outcome. -/
theorem lucasEven_exit (two : (2 : K) ≠ 0) {u : FqData nqr}
    (unitary : u.re * u.re - u.im * u.im * nqr = 1) (cofactor : ℕ) (real : u.im = 0) {e : Exit}
    (exit : FieldMethods.invert (0 : K) = .error e) : lucasEven u cofactor = .error e := by
  have denominator := lucas_discriminant unitary
  rw [real, mul_zero] at denominator
  simp only [lucasEven, FieldMethods.double_eq, FieldMethods.square_eq, genericHalve_ok two,
    denominator, genericDiv, exit]
  rfl

end Even

end Unitary

end Pbc.Ecc
