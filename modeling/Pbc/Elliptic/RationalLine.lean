import Pbc.Algebra.ResidueSymbol
import Pbc.Elliptic.Cocycle
import Pbc.Elliptic.Division

/-!
# Lines evaluated at rational points

The value of a line at a point of the curve over the same field is not killed by a final
power. Lines and verticals have norms with leading coefficient one or minus one, so two
products of lines with the same zeros differ by a fourth root of unity, which a residue
symbol of odd order kills. The symbols of lines over verticals form a cocycle on the
multiples of a point that the second point is not among.
-/

open Polynomial (C X eval₂ eval₂RingHom coe_eval₂RingHom eval₂_C eval₂_X eval₂_sub eval₂_add
  eval₂_mul eval₂_pow)
open scoped Polynomial
open WeierstrassCurve.Affine WeierstrassCurve.Affine.CoordinateRing
open Pbc.Algebra

namespace Pbc.Elliptic

section Normalised

variable {F : Type*} [Field F] {W : WeierstrassCurve.Affine F}

/-- A function whose norm has a leading coefficient of square one. -/
def Normalised (f : W.CoordinateRing) : Prop := (Algebra.norm F[X] f).leadingCoeff ^ 2 = 1

theorem Normalised.one : Normalised (1 : W.CoordinateRing) := by
  rw [Normalised, map_one, Polynomial.leadingCoeff_one, one_pow]

theorem Normalised.mul {f g : W.CoordinateRing} (left : Normalised f) (right : Normalised g) :
    Normalised (f * g) := by
  rw [Normalised, map_mul, Polynomial.leadingCoeff_mul, mul_pow, left, right, one_mul]

theorem normalised_XClass (x : F) : Normalised (XClass W x) := by
  have basis : XClass W x = (X - C x) • (1 : W.CoordinateRing) + (0 : F[X]) • CoordinateRing.mk W X := by
    rw [zero_smul, add_zero, Algebra.smul_def, mul_one]
    rfl
  have norm : Algebra.norm F[X] (XClass W x) = (X - C x) ^ 2 := by
    rw [basis, norm_smul_basis]
    ring
  rw [Normalised, norm, Polynomial.leadingCoeff_pow, Polynomial.leadingCoeff_X_sub_C, one_pow,
    one_pow]

theorem normalised_YClass (x y l : F) : Normalised (YClass W (linePolynomial x y l)) := by
  have basis : YClass W (linePolynomial x y l) =
      (-linePolynomial x y l) • (1 : W.CoordinateRing) + (1 : F[X]) • CoordinateRing.mk W X := by
    rw [one_smul, Algebra.smul_def, mul_one, YClass, map_sub, map_neg]
    exact sub_eq_neg_add _ _
  have norm : Algebra.norm F[X] (YClass W (linePolynomial x y l)) = W.addPolynomial x y l := by
    rw [basis, norm_smul_basis, addPolynomial, polynomial]
    simp only [Polynomial.eval_sub, Polynomial.eval_add, Polynomial.eval_mul, Polynomial.eval_pow,
      Polynomial.eval_C, Polynomial.eval_X]
    ring
  rw [Normalised, norm, addPolynomial_eq, Polynomial.leadingCoeff_neg,
    Cubic.leadingCoeff_of_a_ne_zero' one_ne_zero, neg_sq, one_pow]

theorem normalised_vertical (A : W.Point) : Normalised (vertical A) := by
  cases A with
  | zero => exact Normalised.one
  | some x y on => exact normalised_XClass x

theorem normalised_line [DecidableEq F] (A B : W.Point) : Normalised (line A B) := by
  match A, B with
  | .zero, B => exact normalised_vertical B
  | .some x y on, .zero => exact normalised_XClass x
  | .some x₁ y₁ on₁, .some x₂ y₂ on₂ =>
    by_cases opposite : x₁ = x₂ ∧ y₁ = W.negY x₂ y₂
    · rw [line_of_opposite opposite]
      exact normalised_XClass x₁
    · rw [line_of_not_opposite opposite]
      exact normalised_YClass _ _ _

/-- Normalised functions with the same zeros differ by a fourth root of unity. -/
theorem Normalised.exists_const {f g : W.CoordinateRing} (left : Normalised f)
    (right : Normalised g) (same : Ideal.span {f} = Ideal.span {g}) :
    ∃ c : F, c ^ 4 = 1 ∧ f = algebraMap F W.CoordinateRing c * g := by
  obtain ⟨c, -, rfl⟩ := exists_const_of_span_eq same
  refine ⟨c, ?_, rfl⟩
  have basis : algebraMap F W.CoordinateRing c =
      (C c) • (1 : W.CoordinateRing) + (0 : F[X]) • CoordinateRing.mk W X := by
    rw [zero_smul, add_zero, Algebra.smul_def, mul_one]
    rfl
  have norm : Algebra.norm F[X] (algebraMap F W.CoordinateRing c) = C (c ^ 2) := by
    rw [basis, norm_smul_basis, Polynomial.C_pow]
    ring
  rw [Normalised, map_mul, Polynomial.leadingCoeff_mul, norm, Polynomial.leadingCoeff_C, mul_pow,
    right, mul_one, ← pow_mul] at left
  exact left

end Normalised

variable {F : Type*} [Field F] {a b : F}

/-- The line through three points takes on the curve the product of three differences. -/
theorem Collinear.product_sub {l k x₁ x₂ x₃ : F} (line : Collinear a b 1 l k x₁ x₂ x₃) (t : F) :
    t ^ 3 + a * t + b - (l * t + k) ^ 2 = (t - x₁) * (t - x₂) * (t - x₃) := by
  linear_combination t ^ 2 * line.sum - t * line.pairs + line.product

/-- A point of the curve that is not at infinity. -/
structure FinitePoint (a b : F) where
  x : F
  y : F
  on : (short a b).Nonsingular x y

namespace FinitePoint

variable (Q : FinitePoint a b)

/-- As an element of the group. -/
def point : (short a b).Point := .some Q.x Q.y Q.on

theorem curve : Q.y ^ 2 = Q.x ^ 3 + a * Q.x + b := short_nonsingular_eq Q.on

/-- A function of the affine curve at the point. -/
noncomputable def eval : (short a b).CoordinateRing →+* F :=
  AdjoinRoot.lift (eval₂RingHom (RingHom.id F) Q.x) Q.y (by
    have curve := Q.curve
    simp only [polynomial, short_a₁, short_a₂, short_a₃, short_a₄, short_a₆, Polynomial.C_0,
      zero_mul, add_zero, eval₂_sub, eval₂_add, eval₂_mul, eval₂_pow, eval₂_C, eval₂_X,
      coe_eval₂RingHom, RingHom.id_apply]
    linear_combination curve)

theorem eval_mk_C (p : F[X]) :
    Q.eval (CoordinateRing.mk (short a b) (C p)) = eval₂ (RingHom.id F) Q.x p := by
  rw [eval, AdjoinRoot.lift_mk, eval₂_C, coe_eval₂RingHom]

theorem eval_const (c : F) : Q.eval (algebraMap F (short a b).CoordinateRing c) = c := by
  have constant := Q.eval_mk_C (C c)
  rw [eval₂_C] at constant
  exact constant

theorem eval_XClass (x : F) : Q.eval (XClass (short a b) x) = Q.x - x := by
  rw [XClass, eval_mk_C, eval₂_sub, eval₂_X, eval₂_C, RingHom.id_apply]

/-- The value of the line of slope `l` through `(x, y)`. -/
theorem eval_YClass_line (x y l : F) :
    Q.eval (YClass (short a b) (linePolynomial x y l)) = Q.y - (l * Q.x + (y - l * x)) := by
  rw [YClass, map_sub, map_sub, eval_mk_C, eval, AdjoinRoot.lift_mk, eval₂_X, linePolynomial]
  simp only [eval₂_add, eval₂_mul, eval₂_sub, eval₂_C, eval₂_X, RingHom.id_apply]
  ring

@[simp] theorem eval_vertical_zero : Q.eval (vertical (0 : (short a b).Point)) = 1 := by
  rw [vertical_zero, map_one]

@[simp] theorem eval_vertical_some {x y : F} (on : (short a b).Nonsingular x y) :
    Q.eval (vertical (.some x y on)) = Q.x - x :=
  Q.eval_XClass x

@[simp] theorem eval_vertical_neg (A : (short a b).Point) :
    Q.eval (vertical (-A)) = Q.eval (vertical A) := by
  cases A with
  | zero => rfl
  | some x y on => rfl

variable [DecidableEq F]

omit [DecidableEq F] in
/-- The opposite of a point with coordinates. -/
theorem neg_point {x y : F} (on : (short a b).Nonsingular x y) :
    ∃ on', -(Point.some x y on) = .some x (-y) on' :=
  ⟨short_nonsingular_neg on, short_neg_some on⟩

/-- The value at a point of the line through two others. -/
theorem eval_line_some {x₁ y₁ x₂ y₂ : F} (on₁ : (short a b).Nonsingular x₁ y₁)
    (on₂ : (short a b).Nonsingular x₂ y₂)
    (opposite : ¬(x₁ = x₂ ∧ y₁ = (short a b).negY x₂ y₂)) :
    Q.eval (line (.some x₁ y₁ on₁) (.some x₂ y₂ on₂)) =
      Q.y - ((short a b).slope x₁ x₂ y₁ y₂ * Q.x + (y₁ - (short a b).slope x₁ x₂ y₁ y₂ * x₁)) := by
  rw [line_of_not_opposite opposite, eval_YClass_line]

/-- The line through two opposite points. -/
theorem eval_line_of_opposite {A B : (short a b).Point} (sum : A + B = 0) :
    Q.eval (line A B) = Q.eval (vertical A) := by
  obtain rfl := neg_eq_of_add_eq_zero_right sum
  cases A with
  | zero => rfl
  | some x y on =>
    obtain ⟨on', negated⟩ := neg_point on
    rw [negated, line_of_opposite ⟨rfl, by rw [short_negY, neg_neg]⟩]
    rfl

/-- Two points are opposite or there is a line with a slope through them. -/
private theorem not_opposite {x₁ y₁ x₂ y₂ : F} {on₁ : (short a b).Nonsingular x₁ y₁}
    {on₂ : (short a b).Nonsingular x₂ y₂}
    (sum : Point.some x₁ y₁ on₁ + .some x₂ y₂ on₂ ≠ 0) :
    ¬(x₁ = x₂ ∧ y₁ = (short a b).negY x₂ y₂) :=
  fun equal => sum (Point.add_of_Y_eq equal.1 equal.2)

omit [DecidableEq F] in
/-- Nor are the opposite points. -/
private theorem neg_not_opposite {x₁ y₁ x₂ y₂ : F}
    (opposite : ¬(x₁ = x₂ ∧ y₁ = (short a b).negY x₂ y₂)) :
    ¬(x₁ = x₂ ∧ -y₁ = (short a b).negY x₂ (-y₂)) := by
  rw [short_negY, neg_inj]
  rwa [short_negY] at opposite

/-- The line through the opposite points has the opposite slope. -/
private theorem slope_neg {x₁ y₁ x₂ y₂ : F} (on₁ : (short a b).Nonsingular x₁ y₁)
    (on₂ : (short a b).Nonsingular x₂ y₂) (opposite : ¬(x₁ = x₂ ∧ y₁ = (short a b).negY x₂ y₂)) :
    (short a b).slope x₁ x₂ (-y₁) (-y₂) = -(short a b).slope x₁ x₂ y₁ y₂ := by
  by_cases same : x₁ = x₂
  · have equal := Y_eq_of_Y_ne on₁.left on₂.left same fun negated => opposite ⟨same, negated⟩
    have apart : y₁ ≠ -y₁ := fun negated =>
      opposite ⟨same, negated.trans (by rw [short_negY, equal])⟩
    rw [← same, ← equal, short_slope_self apart, short_slope_self fun negated =>
      apart (neg_injective negated)]
    rw [mul_neg, div_neg]
  · rw [short_slope_of_ne _ _ same, short_slope_of_ne _ _ same]
    ring

/-- The line through two points and the one through their opposites multiply to the
verticals at both points and at their sum. -/
theorem eval_line_mul_neg (A B : (short a b).Point) :
    Q.eval (line A B) * Q.eval (line (-A) (-B)) =
      Q.eval (vertical A) * Q.eval (vertical B) * Q.eval (vertical (A + B)) := by
  by_cases sum : A + B = 0
  · have opposite : -A + -B = 0 := by rw [← neg_add, sum, neg_zero]
    rw [Q.eval_line_of_opposite sum, Q.eval_line_of_opposite opposite, eval_vertical_neg, sum,
      eval_vertical_zero, ← neg_eq_of_add_eq_zero_right sum, eval_vertical_neg, mul_one]
  · cases A with
    | zero =>
      change Q.eval (vertical B) * Q.eval (line (-0) (-B)) =
        Q.eval (vertical 0) * Q.eval (vertical B) * Q.eval (vertical (0 + B))
      rw [neg_zero, line_zero_left, eval_vertical_neg, eval_vertical_zero, zero_add, one_mul]
    | some x₁ y₁ on₁ =>
      cases B with
      | zero =>
        change Q.eval (line _ 0) * Q.eval (line _ (-0)) =
          Q.eval (vertical _) * Q.eval (vertical 0) * Q.eval (vertical (_ + 0))
        rw [neg_zero, line_zero_right, line_zero_right, eval_vertical_neg, eval_vertical_zero,
          add_zero, mul_one]
      | some x₂ y₂ on₂ =>
        have opposite := not_opposite sum
        obtain ⟨on₁', negated₁⟩ := neg_point on₁
        obtain ⟨on₂', negated₂⟩ := neg_point on₂
        have opposite' := neg_not_opposite opposite
        have line := collinear_slope on₁.left on₂.left opposite
        have product := line.product_sub Q.x
        rw [← Q.curve] at product
        rw [negated₁, negated₂, Q.eval_line_some on₁ on₂ opposite,
          Q.eval_line_some on₁' on₂' opposite', slope_neg on₁ on₂ opposite,
          Point.add_some opposite]
        simp only [eval_vertical_some]
        rw [← product]
        ring

/-- From the sum and an opposite summand the line is the one through both opposites. -/
theorem eval_line_add_neg {A B : (short a b).Point} (left : A ≠ 0) (right : B ≠ 0)
    (sum : A + B ≠ 0) (distinct : abscissa (A + B) ≠ abscissa B) :
    Q.eval (line (A + B) (-B)) = Q.eval (line (-A) (-B)) := by
  cases A with
  | zero => exact absurd rfl left
  | some x₁ y₁ on₁ =>
    cases B with
    | zero => exact absurd rfl right
    | some x₂ y₂ on₂ =>
      have opposite := not_opposite sum
      obtain ⟨on₁', negated₁⟩ := neg_point on₁
      obtain ⟨on₂', negated₂⟩ := neg_point on₂
      have opposite' := neg_not_opposite opposite
      have passes := slope_passes on₁.left on₂.left opposite
      rw [Point.add_some opposite, abscissa_some, abscissa_some] at distinct
      rw [negated₁, negated₂, Point.add_some opposite,
        Q.eval_line_some _ on₂' fun equal => distinct equal.1, Q.eval_line_some on₁' on₂' opposite',
        slope_neg on₁ on₂ opposite, short_slope_of_ne _ _ distinct, short_addY, short_addX]
      rw [short_addX] at distinct
      generalize (short a b).slope x₁ x₂ y₁ y₂ = l at *
      have apart : l ^ 2 - x₁ - x₂ - x₂ ≠ 0 := sub_ne_zero.mpr distinct
      have slope : (l * (x₁ - (l ^ 2 - x₁ - x₂)) - y₁ - -y₂) / (l ^ 2 - x₁ - x₂ - x₂) = -l := by
        rw [div_eq_iff apart]
        linear_combination passes
      rw [slope]
      ring

section Sums

/-- The lines from a point to two opposite points give the distance of their abscissa from
that of the sum of the first point and the one of evaluation. -/
theorem eval_line_mul_line_neg {A B : (short a b).Point} (left : A ≠ 0) (right : B ≠ 0)
    (distinct : abscissa A ≠ abscissa B) (away : Q.eval (vertical A) ≠ 0) :
    Q.eval (line A B) * Q.eval (line A (-B)) * (abscissa B - abscissa A) =
      Q.eval (vertical A) ^ 2 * Q.eval (vertical B) * (abscissa B - abscissa (A + Q.point)) := by
  cases A with
  | zero => exact absurd rfl left
  | some x₁ y₁ on₁ =>
    cases B with
    | zero => exact absurd rfl right
    | some x₂ y₂ on₂ =>
      obtain ⟨on₂', negated₂⟩ := neg_point on₂
      have curve := Q.curve
      have curve₁ := short_nonsingular_eq on₁
      have curve₂ := short_nonsingular_eq on₂
      rw [abscissa_some, abscissa_some] at distinct
      rw [eval_vertical_some] at away
      have apart : x₁ - x₂ ≠ 0 := sub_ne_zero.mpr distinct
      have off : x₁ ≠ Q.x := (sub_ne_zero.mp away).symm
      have off' : x₁ - Q.x ≠ 0 := sub_ne_zero.mpr off
      rw [negated₂, Q.eval_line_some on₁ on₂ fun equal => distinct equal.1,
        Q.eval_line_some on₁ on₂' fun equal => distinct equal.1, point, abscissa_add on₁ Q.on off,
        short_slope_of_ne _ _ distinct, short_slope_of_ne _ _ distinct, eval_vertical_some,
        eval_vertical_some, abscissa_some, abscissa_some]
      have chord := div_mul_cancel₀ (y₁ - y₂) apart
      have chord' := div_mul_cancel₀ (y₁ - -y₂) apart
      have far := div_mul_cancel₀ (y₁ - Q.y) off'
      generalize (y₁ - y₂) / (x₁ - x₂) = l at *
      generalize (y₁ - -y₂) / (x₁ - x₂) = l' at *
      generalize (y₁ - Q.y) / (x₁ - Q.x) = m at *
      have product := slopes_mul apart curve₁ curve₂ chord chord'
      have height (l : F) : Q.y - (l * Q.x + (y₁ - l * x₁)) = (Q.y - y₁) - l * (Q.x - x₁) := by ring
      have expanded (d u v l l' : F) : (v - l * u) * (v - l' * u) * d =
          v ^ 2 * d - (l * d + l' * d) * u * v + l * l' * d * u ^ 2 := by ring
      rw [height, height, ← neg_sub x₁ x₂, mul_neg, expanded, chord, chord', product]
      linear_combination (Q.x - x₂) * (m * (x₁ - Q.x) + (y₁ - Q.y)) * far +
        (Q.x - x₁) * (curve - curve₁)

/-- So does the tangent for the point itself. -/
theorem eval_tangent {x y : F} (on : (short a b).Nonsingular x y) (axis : y ≠ -y)
    (away : Q.eval (vertical (.some x y on)) ≠ 0) :
    Q.eval (line (.some x y on) (.some x y on)) * (2 * y) =
      Q.eval (vertical (.some x y on)) ^ 2 * (x - abscissa (.some x y on + Q.point)) := by
  have curve := Q.curve
  have curve₁ := short_nonsingular_eq on
  have double : 2 * y ≠ 0 := by
    intro zero
    exact axis (by linear_combination zero)
  rw [eval_vertical_some] at away
  have off : x ≠ Q.x := (sub_ne_zero.mp away).symm
  have off' : x - Q.x ≠ 0 := sub_ne_zero.mpr off
  have slope := div_mul_cancel₀ (3 * x ^ 2 + a) double
  rw [Q.eval_line_some on on fun equal => axis (equal.2.trans (short_negY x y)), point,
    abscissa_add on Q.on off, short_slope_self axis, eval_vertical_some]
  have far : (Q.x - x) ^ 2 * (x - (((y - Q.y) / (x - Q.x)) ^ 2 - x - Q.x)) =
      (2 * x + Q.x) * (Q.x - x) ^ 2 - (y - Q.y) ^ 2 := by
    field_simp
    ring
  rw [far]
  linear_combination -(Q.x - x) * slope + curve - curve₁

end Sums

section Class

variable {M : Type*} [CommGroup M] {r : ℕ} (symbol : ResidueSymbol F M r) {P : (short a b).Point}

private theorem mul_inv_eq_of_mul_eq {x y u v : M} (cross : x * v = y * u) (w : M) :
    x * (u * w)⁻¹ = y * (v * w)⁻¹ := by
  rw [eq_mul_inv_of_mul_eq cross, mul_inv, mul_inv]
  calc y * u * v⁻¹ * (u⁻¹ * w⁻¹)
      = u * u⁻¹ * (y * (v⁻¹ * w⁻¹)) := by ac_rfl
    _ = _ := by rw [mul_inv_cancel, one_mul]

omit [DecidableEq F] in
/-- A point that is neither the one of evaluation nor its opposite. -/
theorem eval_vertical_ne_zero {A : (short a b).Point} (equal : A ≠ Q.point)
    (opposite : A ≠ -Q.point) : Q.eval (vertical A) ≠ 0 := by
  classical
  cases A with
  | zero => exact fun zero => one_ne_zero (Q.eval_vertical_zero.symm.trans zero)
  | some x y on =>
    intro zero
    rw [eval_vertical_some, sub_eq_zero] at zero
    have same : abscissa (.some x y on : (short a b).Point) = abscissa Q.point := zero.symm
    apply abscissa_ne (Point.some_ne_zero on) (Point.some_ne_zero Q.on) _ _ same
    · exact fun sum => opposite (eq_neg_of_add_eq_zero_left sum)
    · exact fun difference => equal (sub_eq_zero.mp difference)

omit [DecidableEq F] in
/-- The symbol of a product of lines depends only on its zeros. -/
theorem of_eval_eq {f g : (short a b).CoordinateRing} (left : Normalised f) (right : Normalised g)
    (same : Ideal.span {f} = Ideal.span {g}) :
    symbol.of (Q.eval f) = symbol.of (Q.eval g) := by
  obtain ⟨c, four, rfl⟩ := left.exists_const right same
  rw [map_mul, eval_const]
  by_cases zero : Q.eval g = 0
  · rw [zero, mul_zero]
  · have unit : c ≠ 0 := by
      rintro rfl
      norm_num at four
    rw [symbol.of_mul unit zero, symbol.of_eq_one_of_pow_four four, one_mul]

/-- A line over the vertical at the sum of its points. -/
noncomputable def chord (A B : (short a b).Point) : F :=
  Q.eval (line A B) / Q.eval (vertical (A + B))

variable (avoids : ∀ k : ℤ, Q.eval (vertical (k • P)) ≠ 0)

include avoids

theorem eval_line_ne_zero (j k : ℤ) : Q.eval (line (j • P) (k • P)) ≠ 0 := by
  have product := Q.eval_line_mul_neg (j • P) (k • P)
  rw [← add_zsmul] at product
  have nonzero := mul_ne_zero (mul_ne_zero (avoids j) (avoids k)) (avoids (j + k))
  exact left_ne_zero_of_mul (product ▸ nonzero)

theorem chord_ne_zero (j k : ℤ) : Q.chord (j • P) (k • P) ≠ 0 := by
  rw [chord, ← add_zsmul]
  exact div_ne_zero (Q.eval_line_ne_zero avoids j k) (avoids (j + k))

/-- The two ways of adding three multiples. -/
private theorem of_chord_assoc (j k l : ℤ) :
    symbol.of (Q.chord (j • P) (k • P) * Q.chord (j • P + k • P) (l • P)) =
      symbol.of (Q.chord (k • P) (l • P) * Q.chord (j • P) (k • P + l • P)) := by
  have left := Q.eval_line_ne_zero avoids
  have same := Q.of_eval_eq symbol (((normalised_line _ _).mul (normalised_line _ _)).mul
    (normalised_vertical _)) (((normalised_line _ _).mul (normalised_line _ _)).mul
    (normalised_vertical _)) (line_cocycle (j • P) (k • P) (l • P))
  simp only [map_mul, ← add_zsmul] at same
  simp only [chord, ← add_zsmul, add_assoc]
  rw [div_mul_div_comm, div_mul_div_comm,
    symbol.of_div (mul_ne_zero (left _ _) (left _ _)) (mul_ne_zero (avoids _) (avoids _)),
    symbol.of_div (mul_ne_zero (left _ _) (left _ _)) (mul_ne_zero (avoids _) (avoids _)),
    symbol.of_mul (avoids _) (avoids _), symbol.of_mul (avoids _) (avoids _)]
  rw [symbol.of_mul (mul_ne_zero (left _ _) (left _ _)) (avoids _),
    symbol.of_mul (mul_ne_zero (left _ _) (left _ _)) (avoids _)] at same
  exact mul_inv_eq_of_mul_eq same _

/-- The symbols of the lines over the verticals along the multiples of a point. -/
noncomputable def cocycle : Cocycle ℤ M where
  value j k := symbol.of (Q.chord (j • P) (k • P))
  zero_left k := by
    rw [chord, zero_zsmul, line_zero_left, zero_add, div_self (avoids k), symbol.of_one]
  comm j k := by
    rw [chord, chord, symbol.of_div (Q.eval_line_ne_zero avoids j k) (add_zsmul P j k ▸ avoids (j + k)),
      symbol.of_div (Q.eval_line_ne_zero avoids k j) (add_zsmul P k j ▸ avoids (k + j)),
      Q.of_eval_eq symbol (normalised_line _ _) (normalised_line _ _) (line_comm (j • P) (k • P)),
      add_comm]
  assoc j k l := by
    have chords := Q.chord_ne_zero avoids
    rw [← symbol.of_mul (chords j k) (chords (j + k) l),
      ← symbol.of_mul (chords k l) (chords j (k + l)), add_zsmul, add_zsmul]
    exact Q.of_chord_assoc symbol avoids j k l

theorem cocycle_value (j k : ℤ) :
    (Q.cocycle symbol avoids).value j k = symbol.of (Q.chord (j • P) (k • P)) := rfl

/-- The symbol of a line from that of its chord. -/
theorem of_line (j k : ℤ) :
    symbol.of (Q.eval (line (j • P) (k • P))) =
      (Q.cocycle symbol avoids).value j k * symbol.of (Q.eval (vertical ((j + k) • P))) := by
  rw [cocycle_value, ← symbol.of_mul (Q.chord_ne_zero avoids j k) (avoids (j + k)), chord,
    ← add_zsmul, div_mul_cancel₀ _ (avoids (j + k))]

/-- A line has the symbol of the one from its first point to the opposite of the sum. -/
theorem of_line_neg (j k : ℤ) :
    symbol.of (Q.eval (line (j • P) (-(j + k) • P))) = symbol.of (Q.eval (line (j • P) (k • P))) := by
  have opposite (l : ℤ) : (Q.cocycle symbol avoids).value l (-l) =
      symbol.of (Q.eval (vertical (l • P))) := by
    rw [cocycle_value, chord, ← add_zsmul, add_neg_cancel, zero_zsmul, eval_vertical_zero, div_one,
      neg_zsmul, Q.eval_line_of_opposite (add_neg_cancel _)]
  have split := (Q.cocycle symbol avoids).assoc k j (-(j + k))
  rw [show j + -(j + k) = -k by ring, add_comm k j, opposite, opposite] at split
  rw [Q.of_line symbol avoids j k, (Q.cocycle symbol avoids).comm j k, split,
    Q.of_line symbol avoids, show j + -(j + k) = -k by ring, neg_zsmul _ k, eval_vertical_neg]

end Class

end FinitePoint

end Pbc.Elliptic
