import Pbc.Elliptic.RationalLine

/-!
# Lines at a shifted point

A line at the sum of two points, over the same line at the second one, is the line at the
first point up to a coboundary: the factors are values of the line through the two points.
A product of lines along the multiples of a point of order `r` is so, up to an `r`-th
power, the same with and without an offset.
-/

open WeierstrassCurve.Affine
open Pbc.Algebra

namespace Pbc.Elliptic

variable {F : Type*} [Field F] {a b : F} {Q R T : FinitePoint a b}

/-- The line `y = slope x + intercept` through two points and the opposite of their sum. -/
structure Secant (Q R T : FinitePoint a b) where
  slope : F
  intercept : F
  first : Q.y = slope * Q.x + intercept
  second : R.y = slope * R.x + intercept
  third : -T.y = slope * T.x + intercept
  collinear : Collinear a b 1 slope intercept Q.x R.x T.x

/-- The chord or tangent through two points with a finite sum. -/
def secant [DecidableEq F] (sum : Q.point + R.point = T.point) : Secant Q R T :=
  have opposite : ¬(Q.x = R.x ∧ Q.y = (short a b).negY R.x R.y) := fun equal =>
    Point.some_ne_zero T.on (sum.symm.trans (Point.add_of_Y_eq equal.1 equal.2))
  have coordinates : (short a b).addX Q.x R.x ((short a b).slope Q.x R.x Q.y R.y) = T.x ∧
      (short a b).addY Q.x R.x Q.y ((short a b).slope Q.x R.x Q.y R.y) = T.y := by
    rw [FinitePoint.point, FinitePoint.point, Point.add_some opposite, FinitePoint.point,
      Point.some.injEq] at sum
    exact sum
  { slope := (short a b).slope Q.x R.x Q.y R.y
    intercept := Q.y - (short a b).slope Q.x R.x Q.y R.y * Q.x
    first := by ring
    second := slope_passes Q.on.left R.on.left opposite
    third := by
      rw [← coordinates.1, ← coordinates.2, short_addY, short_addX]
      ring
    collinear := coordinates.1 ▸ collinear_slope Q.on.left R.on.left opposite }

namespace Secant

variable (through : Secant Q R T)

/-- The height of a point of the curve above the line, one at infinity. -/
def height : (short a b).Point → F
  | .zero => 1
  | .some x y _ => y - (through.slope * x + through.intercept)

@[simp] theorem height_zero : through.height 0 = 1 := rfl

/-- At a point and its opposite it takes the product of the verticals. -/
theorem height_mul_height_neg (A : (short a b).Point) :
    through.height A * through.height (-A) =
      Q.eval (vertical A) * R.eval (vertical A) * T.eval (vertical A) := by
  cases A with
  | zero =>
    change 1 * 1 = Q.eval (vertical 0) * R.eval (vertical 0) * T.eval (vertical 0)
    rw [FinitePoint.eval_vertical_zero, FinitePoint.eval_vertical_zero,
      FinitePoint.eval_vertical_zero, one_mul, one_mul]
  | some x y on =>
    obtain ⟨on', negated⟩ := FinitePoint.neg_point on
    have curve := short_nonsingular_eq on
    have product := through.collinear.product_sub x
    rw [negated]
    simp only [Secant.height, FinitePoint.eval_vertical_some]
    linear_combination -product - curve

theorem height_ne_zero {A : (short a b).Point} (away : Q.eval (vertical A) ≠ 0)
    (offset : R.eval (vertical A) ≠ 0) (shifted : T.eval (vertical A) ≠ 0) :
    through.height A ≠ 0 := by
  have product := through.height_mul_height_neg A
  exact left_ne_zero_of_mul (product ▸ mul_ne_zero (mul_ne_zero away offset) shifted)

/-- Reciprocity of the secant and a line that meets the curve in three points. -/
theorem eval_collinear {l k x₁ y₁ x₂ y₂ x₃ y₃ : F} (chord : Collinear a b 1 l k x₁ x₂ x₃)
    (first : y₁ = l * x₁ + k) (second : y₂ = l * x₂ + k) (third : y₃ = l * x₃ + k) :
    (T.y - (l * T.x + k)) * ((y₁ - (through.slope * x₁ + through.intercept)) *
        (y₂ - (through.slope * x₂ + through.intercept)) *
          (y₃ - (through.slope * x₃ + through.intercept))) =
      (Q.y - (l * Q.x + k)) * (R.y - (l * R.x + k)) *
        ((T.x - x₁) * (T.x - x₂) * (T.x - x₃)) := by
  have reciprocal := Collinear.reciprocity (one_pow 2) chord through.collinear
  simp only [mul_one] at reciprocal
  rw [← through.first, ← through.second, ← through.third, ← first, ← second, ← third] at reciprocal
  have product := chord.product_sub T.x
  rw [← T.curve] at product
  have verticals : (T.x - x₁) * (T.x - x₂) * (T.x - x₃) =
      -((T.y - (l * T.x + k)) * (-T.y - (l * T.x + k))) := by linear_combination -product
  have rearranged (q r t t' : F) : t * (q * r * t') = q * r * (t * t') := by ring
  rw [verticals, mul_neg, ← rearranged, reciprocal, mul_neg, neg_neg]

variable [DecidableEq F]

/-- Reciprocity of the secant and the line through two points of the curve. -/
theorem eval_line (A B : (short a b).Point) :
    T.eval (line A B) * (through.height A * through.height B * through.height (-(A + B))) =
      Q.eval (line A B) * R.eval (line A B) *
        (T.eval (vertical A) * T.eval (vertical B) * T.eval (vertical (A + B))) := by
  by_cases sum : A + B = 0
  · have product := through.height_mul_height_neg A
    rw [sum, neg_zero, height_zero, FinitePoint.eval_vertical_zero, FinitePoint.eval_line_of_opposite _ sum,
      FinitePoint.eval_line_of_opposite _ sum, FinitePoint.eval_line_of_opposite _ sum,
      ← neg_eq_of_add_eq_zero_right sum, FinitePoint.eval_vertical_neg]
    linear_combination T.eval (vertical A) * product
  · cases A with
    | zero =>
      change T.eval (vertical B) * (1 * through.height B * through.height (-(0 + B))) =
        Q.eval (vertical B) * R.eval (vertical B) *
          (T.eval (vertical 0) * T.eval (vertical B) * T.eval (vertical (0 + B)))
      have product := through.height_mul_height_neg B
      rw [zero_add, FinitePoint.eval_vertical_zero]
      linear_combination T.eval (vertical B) * product
    | some x₁ y₁ on₁ =>
      cases B with
      | zero =>
        change T.eval (line _ 0) * (through.height _ * 1 * through.height (-(_ + 0))) =
          Q.eval (line _ 0) * R.eval (line _ 0) *
            (T.eval (vertical _) * T.eval (vertical 0) * T.eval (vertical (_ + 0)))
        have product := through.height_mul_height_neg (.some x₁ y₁ on₁)
        rw [add_zero, FinitePoint.eval_vertical_zero, line_zero_right]
        linear_combination T.eval (vertical (.some x₁ y₁ on₁)) * product
      | some x₂ y₂ on₂ =>
        have opposite : ¬(x₁ = x₂ ∧ y₁ = (short a b).negY x₂ y₂) :=
          fun equal => sum (Point.add_of_Y_eq equal.1 equal.2)
        have passes := slope_passes on₁.left on₂.left opposite
        have chord := collinear_slope on₁.left on₂.left opposite
        rw [FinitePoint.eval_line_some _ on₁ on₂ opposite, FinitePoint.eval_line_some _ on₁ on₂ opposite,
          FinitePoint.eval_line_some _ on₁ on₂ opposite, Point.add_some opposite, Point.neg_some]
        simp only [Secant.height, FinitePoint.eval_vertical_some, short_negY]
        rw [short_addY, ← short_addX (a := a) (b := b)]
        generalize (short a b).slope x₁ x₂ y₁ y₂ = l at *
        generalize (short a b).addX x₁ x₂ l = x₃ at *
        exact through.eval_collinear chord (by ring) passes (by ring)

/-- Neither the offset nor the shifted point lies above or below the point. -/
structure Regular (R T : FinitePoint a b) (A : (short a b).Point) : Prop where
  offset : R.eval (vertical A) ≠ 0
  shifted : T.eval (vertical A) ≠ 0

/-- The quotient of the line at the shifted point and at the offset. -/
theorem chord_div_chord {A B : (short a b).Point} (avoidsA : Q.eval (vertical A) ≠ 0)
    (avoidsB : Q.eval (vertical B) ≠ 0) (avoidsC : Q.eval (vertical (A + B)) ≠ 0)
    (regularA : Regular R T A) (regularB : Regular R T B) (regularC : Regular R T (A + B))
    (meets : R.eval (line A B) ≠ 0) :
    T.chord A B / R.chord A B =
      Q.chord A B * (through.height (A + B) / T.eval (vertical (A + B))) /
        (through.height A / T.eval (vertical A) * (through.height B / T.eval (vertical B))) := by
  have reciprocal := through.eval_line A B
  have product := through.height_mul_height_neg (A + B)
  have heightA := through.height_ne_zero avoidsA regularA.offset regularA.shifted
  have heightB := through.height_ne_zero avoidsB regularB.offset regularB.shifted
  have whole := mul_ne_zero (mul_ne_zero avoidsC regularC.offset) regularC.shifted
  have heightC := left_ne_zero_of_mul (product ▸ whole)
  have heightN := right_ne_zero_of_mul (product ▸ whole)
  have a₁ := regularA.shifted
  have b₁ := regularB.shifted
  have c₁ := regularC.shifted
  have c₀ := regularC.offset
  simp only [FinitePoint.chord]
  field_simp
  apply mul_right_cancel₀ heightN
  linear_combination R.eval (vertical (A + B)) * Q.eval (vertical (A + B)) * reciprocal -
    Q.eval (line A B) * R.eval (line A B) * T.eval (vertical A) * T.eval (vertical B) * product

section Class

variable {M : Type*} [CommGroup M] {r : ℕ} (symbol : ResidueSymbol F M r) {P : (short a b).Point}

variable (P) in
/-- The factor that a multiple contributes. -/
noncomputable def unit (k : ℤ) : M :=
  symbol.of (through.height (k • P) / T.eval (vertical (k • P)))

theorem unit_zero : through.unit symbol P 0 = 1 := by
  rw [unit, zero_zsmul, height_zero, FinitePoint.eval_vertical_zero, div_one, symbol.of_one]

variable (avoids : ∀ k : ℤ, Q.eval (vertical (k • P)) ≠ 0)

/-- The symbols of the quotients along the multiples. -/
noncomputable def cocycle : Cocycle ℤ M :=
  (Q.cocycle symbol avoids).twist (through.unit symbol P) (through.unit_zero symbol)

theorem of_chord_div_chord (j k : ℤ) (regularJ : Regular R T (j • P))
    (regularK : Regular R T (k • P)) (regularSum : Regular R T ((j + k) • P))
    (meets : R.eval (line (j • P) (k • P)) ≠ 0) :
    symbol.of (T.chord (j • P) (k • P) / R.chord (j • P) (k • P)) =
      (through.cocycle symbol avoids).value j k := by
  have heightJ := through.height_ne_zero (avoids j) regularJ.offset regularJ.shifted
  have heightK := through.height_ne_zero (avoids k) regularK.offset regularK.shifted
  have heightSum := through.height_ne_zero (avoids (j + k)) regularSum.offset regularSum.shifted
  have factorJ := div_ne_zero heightJ regularJ.shifted
  have factorK := div_ne_zero heightK regularK.shifted
  have factorSum := div_ne_zero heightSum regularSum.shifted
  have chord := Q.chord_ne_zero avoids j k
  rw [cocycle, Cocycle.twist_value, FinitePoint.cocycle_value, unit, unit, unit,
    ← symbol.of_mul factorJ factorK, ← symbol.of_mul chord factorSum,
    ← symbol.of_div (mul_ne_zero chord factorSum) (mul_ne_zero factorJ factorK)]
  rw [add_zsmul] at regularSum ⊢
  rw [through.chord_div_chord (avoids j) (avoids k) (add_zsmul P j k ▸ avoids (j + k)) regularJ
    regularK regularSum meets]

/-- At the order of the point the offset does not matter. -/
theorem power_order (order : r • P = 0) :
    (through.cocycle symbol avoids).power 1 r = (Q.cocycle symbol avoids).power 1 r := by
  have whole : through.unit symbol P (r • 1) = 1 := by
    rw [nsmul_one, unit, natCast_zsmul, order, height_zero, FinitePoint.eval_vertical_zero, div_one,
      symbol.of_one]
  rw [cocycle, Cocycle.twist_power, whole, unit, symbol.of_root, inv_one, mul_one, mul_one]

end Class

end Secant

end Pbc.Elliptic
