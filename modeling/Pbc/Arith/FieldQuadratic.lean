import Mathlib.Algebra.QuadraticAlgebra.Basic
import Mathlib.Tactic.LinearCombination
import Pbc.Arith.Field

/-!
# Quadratic extensions

An element is a pair `(x, y)` that stands for `x + y s` with `s^2` the stored
nonresidue of the base. The `fi` routines are the case `s^2 = -1`. Products use
three multiplications of the base; they are the products of the extension.
-/

namespace Pbc.Arith

/-- The pairs of `fq_data_s`, over a base with the nonresidue `nqr`. -/
abbrev FqData {K : Type*} (nqr : K) [Zero K] := QuadraticAlgebra K nqr 0

/-- The pairs over a base where `-1` is a nonresidue. -/
abbrev FiData (F : Type*) [Ring F] := QuadraticAlgebra F (-1) 0

section Fq

variable {K : Type*} [CommRing K] [FieldMethods K] {nqr : K}

/-- `fq_mul`: Karatsuba. -/
def fqMul (a b : FqData nqr) : FqData nqr :=
  let e0 := a.re + a.im
  let e1 := b.re + b.im
  let e2 := e0 * e1
  let e0 := a.re * b.re
  let e1 := a.im * b.im
  let x := e1 * nqr
  let x := x + e0
  let e2 := e2 - e0
  ⟨x, e2 - e1⟩

/-- `fq_square`. -/
def fqSquare (a : FqData nqr) : FqData nqr :=
  let e0 := FieldMethods.square a.re
  let e1 := FieldMethods.square a.im
  let e1 := e1 * nqr
  let e0 := e0 + e1
  let e1 := a.re * a.im
  let e1 := FieldMethods.double e1
  ⟨e0, e1⟩

/-- `fq_invert`: the inversion of the norm in the base may end the program. -/
def fqInvert (a : FqData nqr) : Except Exit (FqData nqr) := do
  let e0 := FieldMethods.square a.re
  let e1 := FieldMethods.square a.im
  let e1 := e1 * nqr
  let e0 := e0 - e1
  let e0 ← FieldMethods.invert e0
  let x := a.re * e0
  let e0 := -e0
  return ⟨x, a.im * e0⟩

omit [FieldMethods K] in
@[simp] theorem fqMul_eq (a b : FqData nqr) : fqMul a b = a * b := by
  ext
  · simp only [fqMul, QuadraticAlgebra.re_mul]
    ring
  · simp only [fqMul, QuadraticAlgebra.im_mul]
    ring

@[simp] theorem fqSquare_eq (a : FqData nqr) : fqSquare a = a * a := by
  ext
  · simp only [fqSquare, FieldMethods.square_eq, QuadraticAlgebra.re_mul]
    ring
  · simp only [fqSquare, FieldMethods.double_eq, QuadraticAlgebra.im_mul]
    ring

/-- When the norm is inverted, the result is the inverse. -/
theorem fqInvert_ok {a : FqData nqr} {w : K}
    (inverted : FieldMethods.invert (a.re * a.re - a.im * a.im * nqr) = .ok w)
    (inverse : (a.re * a.re - a.im * a.im * nqr) * w = 1) :
    ∃ b, fqInvert a = .ok b ∧ a * b = 1 := by
  refine ⟨⟨a.re * w, a.im * -w⟩, ?_, ?_⟩
  · simp only [fqInvert, FieldMethods.square_eq, inverted]
    rfl
  · ext
    · simp only [QuadraticAlgebra.re_mul, QuadraticAlgebra.re_one]
      linear_combination inverse
    · simp only [QuadraticAlgebra.im_mul, QuadraticAlgebra.im_one]
      ring

/-- The methods of a quadratic extension. -/
instance {K : Type*} [CommRing K] [FieldMethods K] {nqr : K} : FieldMethods (FqData nqr) where
  square := fqSquare
  double a := ⟨FieldMethods.double a.re, FieldMethods.double a.im⟩
  invert := fqInvert
  square_eq := fqSquare_eq
  double_eq a := by
    ext
    · exact FieldMethods.double_eq a.re
    · exact FieldMethods.double_eq a.im

/-- The norm of a nonzero pair is not zero. -/
theorem norm_ne_zero {K : Type*} [Field K] {nqr : K} [Fact (∀ r : K, r ^ 2 ≠ nqr + 0 * r)]
    {a : FqData nqr} (nonzero : a ≠ 0) : a.re * a.re - a.im * a.im * nqr ≠ 0 := by
  intro zero
  apply nonzero
  rw [← QuadraticAlgebra.norm_eq_zero_iff_eq_zero, QuadraticAlgebra.norm_def]
  linear_combination zero

/-- Over a field and a nonresidue every nonzero element is inverted. -/
theorem fqInvert_eq {K : Type*} [Field K] [FieldMethods K] [InvertsNonzero K] {nqr : K}
    [Fact (∀ r : K, r ^ 2 ≠ nqr + 0 * r)] {a : FqData nqr} (nonzero : a ≠ 0) :
    fqInvert a = .ok a⁻¹ := by
  obtain ⟨b, inverted, inverse⟩ :=
    fqInvert_ok (InvertsNonzero.invert_ok (norm_ne_zero nonzero))
      (mul_inv_cancel₀ (norm_ne_zero nonzero))
  rw [inverted, eq_inv_of_mul_eq_one_right inverse]

instance {K : Type*} [Field K] [FieldMethods K] [InvertsNonzero K] {nqr : K}
    [Fact (∀ r : K, r ^ 2 ≠ nqr + 0 * r)] : InvertsNonzero (FqData nqr) where
  invert_ok nonzero := fqInvert_eq nonzero

/-- Over a base where the inversion of zero ends the program, so does this one. -/
theorem fqInvert_zero {K : Type*} [CommRing K] [FieldMethods K] {nqr : K} {e : Exit}
    (exit : FieldMethods.invert (0 : K) = .error e) : fqInvert (0 : FqData nqr) = .error e := by
  have norm : (0 : FqData nqr).re * (0 : FqData nqr).re -
      (0 : FqData nqr).im * (0 : FqData nqr).im * nqr = 0 := by
    rw [QuadraticAlgebra.re_zero, QuadraticAlgebra.im_zero]
    ring
  simp only [fqInvert, FieldMethods.square_eq, norm, exit]
  rfl

end Fq

section Fi

variable {F : Type*} [Field F]

/-- `fi_mul`: Karatsuba. -/
def fiMul (a b : FiData F) : FiData F :=
  let e0 := a.re + a.im
  let e1 := b.re + b.im
  let e2 := e0 * e1
  let e0 := a.re * b.re
  let e2 := e2 - e0
  let e1 := a.im * b.im
  ⟨e0 - e1, e2 - e1⟩

/-- `fi_square`. -/
def fiSquare (a : FiData F) : FiData F :=
  let e0 := a.re + a.im
  let e1 := a.re - a.im
  let e0 := e0 * e1
  let e1 := a.re * a.im
  let e1 := e1 + e1
  ⟨e0, e1⟩

/-- `fi_invert`. -/
def fiInvert [FpMethods F] (a : FiData F) : FiData F :=
  let e0 := a.re * a.re
  let e1 := a.im * a.im
  let e0 := e0 + e1
  let e0 := zpInvert e0
  let x := a.re * e0
  let e0 := -e0
  ⟨x, a.im * e0⟩

@[simp] theorem fiMul_eq (a b : FiData F) : fiMul a b = a * b := by
  ext
  · simp only [fiMul, QuadraticAlgebra.re_mul]
    ring
  · simp only [fiMul, QuadraticAlgebra.im_mul]
    ring

@[simp] theorem fiSquare_eq (a : FiData F) : fiSquare a = a * a := by
  ext
  · simp only [fiSquare, QuadraticAlgebra.re_mul]
    ring
  · simp only [fiSquare, QuadraticAlgebra.im_mul]
    ring

theorem fiInvert_eq [FpMethods F] [Fact (∀ r : F, r ^ 2 ≠ -1 + 0 * r)] {a : FiData F}
    (nonzero : a ≠ 0) : fiInvert a = a⁻¹ := by
  have norm : a.re * a.re + a.im * a.im ≠ 0 := by
    intro zero
    apply nonzero
    rw [← QuadraticAlgebra.norm_eq_zero_iff_eq_zero, QuadraticAlgebra.norm_def]
    linear_combination zero
  apply eq_inv_of_mul_eq_one_right
  ext
  · simp only [fiInvert, zpInvert_eq norm, QuadraticAlgebra.re_mul, QuadraticAlgebra.re_one]
    linear_combination mul_inv_cancel₀ norm
  · simp only [fiInvert, QuadraticAlgebra.im_mul, QuadraticAlgebra.im_one]
    ring

end Fi

end Pbc.Arith
