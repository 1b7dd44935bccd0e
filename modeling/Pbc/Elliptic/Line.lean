import Mathlib.AlgebraicGeometry.EllipticCurve.Affine.Point
import Pbc.Algebra.Numerals

/-!
# Chords, tangents and verticals in the coordinate ring

The line through two points of a Weierstrass curve and the vertical line at
their sum generate, up to the ideals of the points, the same ideal of the affine
coordinate ring. Two functions that generate one ideal differ by a constant of
the base field, so every addition chain multiplies the same function.
-/

open Polynomial WeierstrassCurve.Affine WeierstrassCurve.Affine.CoordinateRing

namespace Pbc.Elliptic

section Units

variable {F : Type*} [Field F] {W : WeierstrassCurve.Affine F}

/-- The only units of the coordinate ring are the constants. -/
theorem exists_const_of_isUnit {f : W.CoordinateRing} (unit : IsUnit f) :
    ∃ c : F, c ≠ 0 ∧ f = algebraMap F W.CoordinateRing c := by
  obtain ⟨p, q, rfl⟩ := exists_smul_basis_eq f
  have normUnit := unit.map (Algebra.norm F[X])
  have degree := degree_eq_zero_of_isUnit normUnit
  rw [degree_norm_smul_basis] at degree
  have qZero : q = 0 := by
    by_contra nonzero
    have bound := le_max_right (2 • p.degree) (2 • q.degree + 3)
    rw [degree, degree_eq_natDegree nonzero] at bound
    exact absurd (WithBot.coe_le_coe.mp bound) (by simp)
  subst qZero
  have pDegree : p.degree = 0 := by
    rw [degree_zero, two_nsmul ⊥, WithBot.bot_add, WithBot.bot_add, max_bot_right] at degree
    have pNonzero : p ≠ 0 := by
      rintro rfl
      simp at degree
    rw [degree_eq_natDegree pNonzero] at degree ⊢
    have := WithBot.coe_eq_coe.mp degree
    simp at this
    simp [this]
  refine ⟨p.coeff 0, ?_, ?_⟩
  · intro zero
    rw [eq_C_of_degree_eq_zero pDegree, zero, C_0, degree_zero] at pDegree
    simp at pDegree
  · conv_lhs => rw [eq_C_of_degree_eq_zero pDegree]
    rw [zero_smul, add_zero, Algebra.smul_def, mul_one]
    rfl

/-- Two generators of one principal ideal differ by a nonzero constant. -/
theorem exists_const_of_span_eq {f g : W.CoordinateRing}
    (same : Ideal.span {f} = Ideal.span {g}) :
    ∃ c : F, c ≠ 0 ∧ f = algebraMap F W.CoordinateRing c * g := by
  obtain ⟨u, rfl⟩ := Ideal.span_singleton_eq_span_singleton.mp same.symm
  obtain ⟨c, nonzero, equal⟩ := exists_const_of_isUnit u.isUnit
  exact ⟨c, nonzero, by rw [equal, mul_comm]⟩

end Units

section Points

variable {F : Type*} [Field F] {W : WeierstrassCurve.Affine F}

/-- The functions that vanish at a point; no condition at infinity. -/
noncomputable def pointIdeal : W.Point → Ideal W.CoordinateRing
  | .zero => ⊤
  | .some x y _ => XYIdeal W x (C y)

/-- The vertical line at a point, the constant one at infinity. -/
noncomputable def vertical : W.Point → W.CoordinateRing
  | .zero => 1
  | .some x _ _ => XClass W x

@[simp] theorem pointIdeal_zero : pointIdeal (0 : W.Point) = ⊤ := rfl

@[simp] theorem vertical_zero : vertical (0 : W.Point) = 1 := rfl

theorem vertical_ne_zero (A : W.Point) : vertical A ≠ 0 := by
  cases A with
  | zero => exact one_ne_zero
  | some x y on => exact XClass_ne_zero x

/-- A point and its opposite together are the zeros of the vertical line. -/
theorem pointIdeal_mul_neg (A : W.Point) :
    pointIdeal A * pointIdeal (-A) = Ideal.span {vertical A} := by
  cases A with
  | zero => exact (Ideal.top_mul _).trans Ideal.span_singleton_one.symm
  | some x y on =>
      rw [mul_comm]
      exact XYIdeal_neg_mul on

theorem pointIdeal_mul_cancel {A : W.Point} {I J : Ideal W.CoordinateRing}
    (same : pointIdeal A * I = pointIdeal A * J) : I = J := by
  apply (Ideal.span_singleton_mul_right_inj (vertical_ne_zero A)).mp
  rw [← pointIdeal_mul_neg, mul_comm (pointIdeal A), mul_assoc, mul_assoc, same]

end Points

variable {F : Type*} [Field F] [DecidableEq F] {W : WeierstrassCurve.Affine F}

/-- The chord or tangent through two points: a vertical line when one of them is
at infinity or when they are opposite. -/
noncomputable def line : W.Point → W.Point → W.CoordinateRing
  | .zero, second => vertical second
  | .some x₁ _ _, .zero => XClass W x₁
  | .some x₁ y₁ _, .some x₂ y₂ _ =>
      if x₁ = x₂ ∧ y₁ = W.negY x₂ y₂ then XClass W x₁
      else YClass W (linePolynomial x₁ y₁ (W.slope x₁ x₂ y₁ y₂))

@[simp] theorem line_zero_left (A : W.Point) : line 0 A = vertical A := rfl

@[simp] theorem line_zero_right (A : W.Point) : line A 0 = vertical A := by
  cases A <;> rfl

theorem line_of_opposite {x₁ y₁ x₂ y₂ : F} {on₁ : W.Nonsingular x₁ y₁}
    {on₂ : W.Nonsingular x₂ y₂} (opposite : x₁ = x₂ ∧ y₁ = W.negY x₂ y₂) :
    line (.some x₁ y₁ on₁) (.some x₂ y₂ on₂) = XClass W x₁ :=
  if_pos opposite

theorem line_of_not_opposite {x₁ y₁ x₂ y₂ : F} {on₁ : W.Nonsingular x₁ y₁}
    {on₂ : W.Nonsingular x₂ y₂} (opposite : ¬(x₁ = x₂ ∧ y₁ = W.negY x₂ y₂)) :
    line (.some x₁ y₁ on₁) (.some x₂ y₂ on₂) =
      YClass W (linePolynomial x₁ y₁ (W.slope x₁ x₂ y₁ y₂)) :=
  if_neg opposite

/-- The line through two points has them and the opposite of their sum as
zeros. -/
theorem span_vertical_mul (A B : W.Point) :
    Ideal.span {vertical (A + B)} * (pointIdeal A * pointIdeal B) =
      Ideal.span {line A B} * pointIdeal (A + B) := by
  match A, B with
  | .zero, B =>
      change Ideal.span {vertical ((0 : W.Point) + B)} * (⊤ * pointIdeal B) =
        Ideal.span {vertical B} * pointIdeal ((0 : W.Point) + B)
      rw [zero_add, Ideal.top_mul]
  | .some x y on, .zero =>
      change Ideal.span {vertical (Point.some x y on + (0 : W.Point))} *
          (pointIdeal (Point.some x y on) * ⊤) =
        Ideal.span {vertical (Point.some x y on)} *
          pointIdeal (Point.some x y on + (0 : W.Point))
      rw [add_zero, Ideal.mul_top]
  | .some x₁ y₁ on₁, .some x₂ y₂ on₂ =>
      by_cases opposite : x₁ = x₂ ∧ y₁ = W.negY x₂ y₂
      · rw [line_of_opposite opposite]
        obtain ⟨rfl, rfl⟩ := opposite
        rw [Point.add_of_Y_eq rfl rfl, vertical_zero, pointIdeal_zero, Ideal.span_singleton_one,
          Ideal.top_mul, Ideal.mul_top]
        exact XYIdeal_neg_mul on₂
      · rw [line_of_not_opposite opposite, Point.add_some opposite]
        exact XYIdeal_mul_XYIdeal on₁.left on₂.left opposite

theorem line_comm (A B : W.Point) :
    Ideal.span {line A B} = Ideal.span {line B A} := by
  have first := span_vertical_mul A B
  have second := span_vertical_mul B A
  rw [mul_comm (pointIdeal B), add_comm B, first] at second
  apply pointIdeal_mul_cancel (A := A + B)
  rw [mul_comm, second, mul_comm]

/-- Both ways of adding three points meet the same lines and verticals. -/
theorem line_cocycle (A B D : W.Point) :
    Ideal.span {line A B * line (A + B) D * vertical (B + D)} =
      Ideal.span {line B D * line A (B + D) * vertical (A + B)} := by
  have first := span_vertical_mul A B
  have second := span_vertical_mul (A + B) D
  have third := span_vertical_mul B D
  have fourth := span_vertical_mul A (B + D)
  rw [← add_assoc] at fourth
  simp only [← Ideal.span_singleton_mul_span_singleton]
  apply pointIdeal_mul_cancel (A := A + B)
  apply pointIdeal_mul_cancel (A := B + D)
  apply pointIdeal_mul_cancel (A := A + B + D)
  generalize pointIdeal A = iA at *
  generalize pointIdeal B = iB at *
  generalize pointIdeal D = iD at *
  generalize pointIdeal (A + B) = iAB at *
  generalize pointIdeal (B + D) = iBD at *
  generalize pointIdeal (A + B + D) = iABD at *
  generalize Ideal.span {vertical (A + B)} = vAB at *
  generalize Ideal.span {vertical (B + D)} = vBD at *
  generalize Ideal.span {vertical (A + B + D)} = vABD at *
  calc iABD * (iBD * (iAB * (Ideal.span {line A B} * Ideal.span {line (A + B) D} * vBD)))
      = (Ideal.span {line A B} * iAB) * (Ideal.span {line (A + B) D} * iABD) * (vBD * iBD) := by
        ring
    _ = (vAB * iAB) * (Ideal.span {line B D} * iBD) * (vABD * (iA * iBD)) := by
        rw [← first, ← second, ← third]
        ring
    _ = _ := by
        rw [fourth]
        ring

/-- The product of the lines met on the chain `0, A, 2A, ..., nA`. -/
noncomputable def lineProduct (A : W.Point) : ℕ → W.CoordinateRing
  | 0 => 1
  | n + 1 => lineProduct A n * line (n • A) A

/-- The product of the verticals met on the chain `0, A, 2A, ..., nA`. -/
noncomputable def verticalProduct (A : W.Point) : ℕ → W.CoordinateRing
  | 0 => 1
  | n + 1 => verticalProduct A n * vertical ((n + 1) • A)

theorem verticalProduct_ne_zero (A : W.Point) (n : ℕ) : verticalProduct A n ≠ 0 := by
  induction n with
  | zero => exact one_ne_zero
  | succ n ih => exact mul_ne_zero ih (vertical_ne_zero _)

/-- The quotient of both products has a zero of order `n` at the point. -/
theorem span_verticalProduct (A : W.Point) (n : ℕ) :
    Ideal.span {verticalProduct A n} * pointIdeal A ^ n =
      Ideal.span {lineProduct A n} * pointIdeal (n • A) := by
  induction n with
  | zero =>
      rw [pow_zero, zero_smul, pointIdeal_zero, Ideal.one_eq_top]
      rfl
  | succ n ih =>
      have step := span_vertical_mul (n • A) A
      rw [← succ_nsmul] at step
      simp only [verticalProduct, lineProduct, ← Ideal.span_singleton_mul_span_singleton]
      apply pointIdeal_mul_cancel (A := n • A)
      calc pointIdeal (n • A) * (Ideal.span {verticalProduct A n} *
              Ideal.span {vertical ((n + 1) • A)} * pointIdeal A ^ (n + 1))
          = (Ideal.span {verticalProduct A n} * pointIdeal A ^ n) *
              (Ideal.span {vertical ((n + 1) • A)} * (pointIdeal (n • A) * pointIdeal A)) := by
            rw [pow_succ]
            ring
        _ = _ := by
            rw [ih, step]
            ring

/-- The functions with the divisor `n (A) - n (O)`, for a multiple of the order. -/
def IsMillerFunction (A : W.Point) (n : ℕ) (f : W.CoordinateRing) : Prop :=
  Ideal.span {f} = pointIdeal A ^ n

/-- The chain computes such a function, up to the product of its verticals. -/
theorem exists_millerFunction {A : W.Point} {n : ℕ} (order : n • A = 0) :
    ∃ f, IsMillerFunction A n f ∧ lineProduct A n = verticalProduct A n * f := by
  have products := span_verticalProduct A n
  rw [order, pointIdeal_zero, Ideal.mul_top] at products
  have member : lineProduct A n ∈ Ideal.span {verticalProduct A n} * pointIdeal A ^ n :=
    products ▸ Ideal.mem_span_singleton_self _
  obtain ⟨f, -, equal⟩ := Ideal.mem_span_singleton_mul.mp member
  refine ⟨f, ?_, equal.symm⟩
  rw [← equal, ← Ideal.span_singleton_mul_span_singleton] at products
  exact ((Ideal.span_singleton_mul_right_inj (verticalProduct_ne_zero A n)).mp products).symm

end Pbc.Elliptic
