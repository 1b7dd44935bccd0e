import Mathlib.AlgebraicGeometry.EllipticCurve.Affine.Point
import Pbc.Algebra.Numerals

/-!
# Short Weierstrass curves

The curve `y^2 = x^3 + a x + b`, with the group law of its points written in the
coordinates an implementation computes, and the relation between the three
points of a line that the reciprocity argument uses.
-/

open WeierstrassCurve.Affine

namespace Pbc.Elliptic

/-- The curve `y^2 = x^3 + a x + b`. -/
@[simps] def short {R : Type*} [CommRing R] (a b : R) : WeierstrassCurve.Affine R :=
  ⟨0, 0, 0, a, b⟩

section Ring

variable {R : Type*} [CommRing R] {a b : R}

theorem short_equation_iff {x y : R} : (short a b).Equation x y ↔ y ^ 2 = x ^ 3 + a * x + b := by
  rw [equation_iff]
  simp

@[simp] theorem short_negY (x y : R) : (short a b).negY x y = -y := by
  simp [negY]

@[simp] theorem short_addX (x₁ x₂ l : R) : (short a b).addX x₁ x₂ l = l ^ 2 - x₁ - x₂ := by
  simp [addX]

theorem short_addY (x₁ x₂ y₁ l : R) :
    (short a b).addY x₁ x₂ y₁ l = l * (x₁ - (l ^ 2 - x₁ - x₂)) - y₁ := by
  simp only [addY, negAddY, short_negY, short_addX]
  ring

/-- The three points with these abscissas lie on the line of slope `μ` and
intercept `ν` and on `d y^2 = x^3 + a x + b`: the line meets the curve in the
roots of one cubic. -/
structure Collinear (a b d μ ν x₁ x₂ x₃ : R) : Prop where
  sum : x₁ + x₂ + x₃ = d * μ ^ 2
  pairs : x₁ * x₂ + x₁ * x₃ + x₂ * x₃ = a - 2 * d * μ * ν
  product : x₁ * x₂ * x₃ = d * ν ^ 2 - b

/-- A linear form over three values, in their symmetric functions. -/
theorem mul_linear (p q x y z : R) : (p * x + q) * (p * y + q) * (p * z + q) =
    p ^ 3 * (x * y * z) + p ^ 2 * q * (x * y + x * z + y * z) + p * q ^ 2 * (x + y + z) + q ^ 3 := by
  ring

/-- Reciprocity of two lines on `y^2 = x^3 + a x + b`: one line is multiplied over
the points of the other, the points of the second being `(x, (μ x + ν) s)`. -/
theorem Collinear.reciprocity {d s l k x₁ x₂ x₃ μ ν X₁ X₂ X₃ : R} (root : s ^ 2 = d)
    (first : Collinear a b 1 l k x₁ x₂ x₃) (second : Collinear a b d μ ν X₁ X₂ X₃) :
    ((μ * X₁ + ν) * s - (l * X₁ + k)) * ((μ * X₂ + ν) * s - (l * X₂ + k)) *
        ((μ * X₃ + ν) * s - (l * X₃ + k)) =
      -((l * x₁ + k - (μ * x₁ + ν) * s) * (l * x₂ + k - (μ * x₂ + ν) * s) *
        (l * x₃ + k - (μ * x₃ + ν) * s)) := by
  subst root
  have difference (x : R) : (μ * x + ν) * s - (l * x + k) = (s * μ - l) * x + (s * ν - k) := by ring
  have opposite (x : R) : l * x + k - (μ * x + ν) * s = -((s * μ - l) * x + (s * ν - k)) := by ring
  have pairs : X₁ * X₂ + X₁ * X₃ + X₂ * X₃ = a - 2 * (s * μ) * (s * ν) := by
    linear_combination second.pairs
  simp only [difference, opposite, neg_mul, mul_neg, neg_neg]
  rw [mul_linear, mul_linear, first.product, first.pairs, first.sum, second.product, pairs,
    second.sum, ← mul_pow, ← mul_pow]
  -- only the slope and the intercept of the second line, each times the root, are left
  generalize s * μ = m
  generalize s * ν = n
  ring

end Ring

section Field

variable {F : Type*} [Field F] {a b : F}

/-- Off the two-torsion every point of the curve is nonsingular. -/
theorem short_nonsingular (two : (2 : F) ≠ 0) {x y : F} (on : y ^ 2 = x ^ 3 + a * x + b)
    (nonzero : y ≠ 0) : (short a b).Nonsingular x y := by
  rw [nonsingular_iff]
  refine ⟨short_equation_iff.mpr on, Or.inr ?_⟩
  simp only [short_a₁, short_a₃, zero_mul, sub_zero]
  intro equal
  have doubled : 2 * y = 0 := by linear_combination equal
  exact (mul_ne_zero two nonzero) doubled

theorem short_nonsingular_eq {x y : F} (on : (short a b).Nonsingular x y) :
    y ^ 2 = x ^ 3 + a * x + b :=
  short_equation_iff.mp on.left

/-- The opposite of a finite point. -/
theorem short_nonsingular_neg {x y : F} (on : (short a b).Nonsingular x y) :
    (short a b).Nonsingular x (-y) := by
  simpa using (WeierstrassCurve.Affine.nonsingular_neg x y).mpr on

theorem short_neg_some {x y : F} (on : (short a b).Nonsingular x y) :
    -(Point.some x y on) = .some x (-y) (short_nonsingular_neg on) := by
  rw [Point.neg_some, Point.some.injEq, short_negY]
  exact ⟨rfl, rfl⟩

/-- On a curve without singular points every point is nonsingular. -/
theorem short_nonsingular_of_smooth (two : (2 : F) ≠ 0) (smooth : 4 * a ^ 3 + 27 * b ^ 2 ≠ 0)
    {x y : F} (on : y ^ 2 = x ^ 3 + a * x + b) : (short a b).Nonsingular x y := by
  have value : (short a b).Δ = -(2 ^ 4) * (4 * a ^ 3 + 27 * b ^ 2) := by
    simp only [WeierstrassCurve.Δ, WeierstrassCurve.b₂, WeierstrassCurve.b₄, WeierstrassCurve.b₆,
      WeierstrassCurve.b₈, short_a₁, short_a₂, short_a₃, short_a₄, short_a₆]
    ring
  have discriminant : IsUnit (short a b).Δ := by
    rw [isUnit_iff_ne_zero, value]
    exact mul_ne_zero (neg_ne_zero.mpr (pow_ne_zero 4 two)) smooth
  have elliptic : (short a b).IsElliptic := ⟨discriminant⟩
  exact equation_iff_nonsingular.mp (short_equation_iff.mpr on)

variable [DecidableEq F]

theorem short_slope_of_ne {x₁ x₂ : F} (y₁ y₂ : F) (distinct : x₁ ≠ x₂) :
    (short a b).slope x₁ x₂ y₁ y₂ = (y₁ - y₂) / (x₁ - x₂) :=
  slope_of_X_ne distinct

theorem short_slope_self {x y : F} (nonzero : y ≠ -y) :
    (short a b).slope x x y y = (3 * x ^ 2 + a) / (2 * y) := by
  rw [slope_of_Y_ne rfl (by simpa using nonzero)]
  simp [two_mul]

/-- The chord or tangent through two points and the opposite of their sum. -/
theorem collinear_slope {x₁ y₁ x₂ y₂ : F} (on₁ : (short a b).Equation x₁ y₁)
    (on₂ : (short a b).Equation x₂ y₂) (opposite : ¬(x₁ = x₂ ∧ y₁ = (short a b).negY x₂ y₂)) :
    Collinear a b 1 ((short a b).slope x₁ x₂ y₁ y₂)
      (y₁ - (short a b).slope x₁ x₂ y₁ y₂ * x₁) x₁ x₂
      ((short a b).addX x₁ x₂ ((short a b).slope x₁ x₂ y₁ y₂)) := by
  have cubic := addPolynomial_slope on₁ on₂ opposite
  rw [addPolynomial_eq, neg_inj, Cubic.prod_X_sub_C_eq, Cubic.toPoly_injective,
    Cubic.mk.injEq] at cubic
  obtain ⟨-, -, pairs, product⟩ := cubic
  simp only [short_a₁, short_a₃, short_a₄, short_a₆] at pairs product
  constructor
  · rw [short_addX]
    ring
  · linear_combination -pairs
  · linear_combination product

/-- Both points lie on the line through them. -/
theorem slope_passes {x₁ y₁ x₂ y₂ : F} (on₁ : (short a b).Equation x₁ y₁)
    (on₂ : (short a b).Equation x₂ y₂) (opposite : ¬(x₁ = x₂ ∧ y₁ = (short a b).negY x₂ y₂)) :
    y₂ = (short a b).slope x₁ x₂ y₁ y₂ * x₂ + (y₁ - (short a b).slope x₁ x₂ y₁ y₂ * x₁) := by
  by_cases same : x₁ = x₂
  · have equal := Y_eq_of_Y_ne on₁ on₂ same fun negated => opposite ⟨same, negated⟩
    rw [same, equal]
    ring
  · have apart : x₁ - x₂ ≠ 0 := sub_ne_zero.mpr same
    rw [short_slope_of_ne y₁ y₂ same]
    field_simp
    ring

/-- The coordinates of a doubled point. -/
theorem double_coordinates (two : (2 : F) ≠ 0) {x y x₂ y₂ : F} {on : (short a b).Nonsingular x y}
    {on₂ : (short a b).Nonsingular x₂ y₂} (axis : y ≠ 0)
    (double : Point.some x y on + .some x y on = .some x₂ y₂ on₂) :
    x₂ = ((3 * x ^ 2 + a) / (2 * y)) ^ 2 - x - x ∧
      y₂ = (3 * x ^ 2 + a) / (2 * y) * (x - x₂) - y := by
  have slope : y ≠ -y := by
    intro equal
    have doubled : 2 * y = 0 := by linear_combination equal
    exact mul_ne_zero two axis doubled
  rw [Point.add_some fun equal => slope (equal.2.trans (short_negY x y)), Point.some.injEq,
    short_addY, short_addX, short_slope_self slope] at double
  exact ⟨double.1.symm, by rw [← double.1, double.2]⟩

/-- The coordinates of the sum of two points with distinct abscissas. -/
theorem add_coordinates {x y x₁ y₁ x₂ y₂ : F} {on : (short a b).Nonsingular x y}
    {on₁ : (short a b).Nonsingular x₁ y₁} {on₂ : (short a b).Nonsingular x₂ y₂}
    (distinct : x ≠ x₁) (sum : Point.some x y on + .some x₁ y₁ on₁ = .some x₂ y₂ on₂) :
    x₂ = ((y - y₁) / (x - x₁)) ^ 2 - x - x₁ ∧ y₂ = (y - y₁) / (x - x₁) * (x - x₂) - y := by
  rw [Point.add_some fun equal => distinct equal.1, Point.some.injEq, short_addY, short_addX,
    short_slope_of_ne y y₁ distinct] at sum
  exact ⟨sum.1.symm, by rw [← sum.1, sum.2]⟩

end Field

end Pbc.Elliptic
