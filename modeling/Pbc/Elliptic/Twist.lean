import Mathlib.Algebra.QuadraticAlgebra.Basic
import Pbc.Algebra.ScalarClass
import Pbc.Elliptic.Cocycle
import Pbc.Elliptic.Line
import Pbc.Elliptic.Short

/-!
# Lines evaluated at points of the quadratic twist

A point `(x, y)` with `d y^2 = x^3 + a x + b` over the even field becomes the
point `(x, y s)` of the curve over its quadratic extension by `s^2 = d`. The value
of a vertical line there is a scalar of the even field, so the values of lines
up to scalars form a cocycle on the points of the curve.
-/

open scoped Polynomial
open Polynomial (C eval₂ eval₂RingHom coe_eval₂RingHom eval₂_C eval₂_X eval₂_sub eval₂_add
  eval₂_mul eval₂_pow)
open WeierstrassCurve.Affine WeierstrassCurve.Affine.CoordinateRing
open Pbc.Algebra

namespace Pbc.Elliptic

variable {F K₀ : Type*} [Field F] [Field K₀] [Algebra F K₀]

@[simp] private theorem algebraMap_base_re (d : K₀) (c : F) :
    (algebraMap F (QuadraticAlgebra K₀ d 0) c).re = algebraMap F K₀ c := rfl

@[simp] private theorem algebraMap_base_im (d : K₀) (c : F) :
    (algebraMap F (QuadraticAlgebra K₀ d 0) c).im = 0 := rfl

/-- A point of the twisted curve `d y^2 = x^3 + a x + b` that is neither at
infinity nor of order two. -/
structure TwistPoint (a b : F) (d : K₀) where
  x : K₀
  y : K₀
  on : d * y ^ 2 = x ^ 3 + algebraMap F K₀ a * x + algebraMap F K₀ b
  nonzero : y ≠ 0

namespace TwistPoint

variable {a b : F} {d : K₀}

/-- The opposite point. -/
@[simps] def neg (Q : TwistPoint a b d) : TwistPoint a b d where
  x := Q.x
  y := -Q.y
  on := by rw [neg_sq, Q.on]
  nonzero := neg_ne_zero.mpr Q.nonzero

/-- A function of the affine curve at the untwisted point `(x, y s)`. -/
noncomputable def eval (Q : TwistPoint a b d) :
    (short a b).CoordinateRing →+* QuadraticAlgebra K₀ d 0 :=
  AdjoinRoot.lift
    (eval₂RingHom (algebraMap F (QuadraticAlgebra K₀ d 0)) (QuadraticAlgebra.C Q.x)) ⟨0, Q.y⟩ (by
      have on := Q.on
      simp only [polynomial, short_a₁, short_a₂, short_a₃, short_a₄, short_a₆, Polynomial.C_0,
        zero_mul, add_zero, eval₂_sub, eval₂_add, eval₂_mul, eval₂_pow, eval₂_C, eval₂_X,
        coe_eval₂RingHom]
      ext
      · simp [pow_succ] at on ⊢
        linear_combination on
      · simp [pow_succ])

theorem eval_mk_C (Q : TwistPoint a b d) (p : F[X]) :
    Q.eval (CoordinateRing.mk (short a b) (C p)) =
      eval₂ (algebraMap F (QuadraticAlgebra K₀ d 0)) (QuadraticAlgebra.C Q.x) p := by
  rw [eval, AdjoinRoot.lift_mk, eval₂_C, coe_eval₂RingHom]

theorem eval_const (Q : TwistPoint a b d) (c : F) :
    Q.eval (algebraMap F (short a b).CoordinateRing c) =
      algebraMap K₀ (QuadraticAlgebra K₀ d 0) (algebraMap F K₀ c) := by
  have constant := Q.eval_mk_C (C c)
  rw [eval₂_C] at constant
  exact constant

theorem eval_XClass (Q : TwistPoint a b d) (x : F) :
    Q.eval (XClass (short a b) x) =
      algebraMap K₀ (QuadraticAlgebra K₀ d 0) (Q.x - algebraMap F K₀ x) := by
  rw [XClass, eval_mk_C, eval₂_sub, eval₂_X, eval₂_C, map_sub]
  rfl

theorem eval_YClass (Q : TwistPoint a b d) (p : F[X]) :
    Q.eval (YClass (short a b) p) =
      ⟨0, Q.y⟩ - eval₂ (algebraMap F (QuadraticAlgebra K₀ d 0)) (QuadraticAlgebra.C Q.x) p := by
  rw [YClass, map_sub, map_sub, eval_mk_C, eval, AdjoinRoot.lift_mk, eval₂_X]

/-- The value of the line of slope `l` through `(x, y)`. -/
theorem eval_YClass_line (Q : TwistPoint a b d) (x y l : F) :
    Q.eval (YClass (short a b) (linePolynomial x y l)) =
      ⟨-(algebraMap F K₀ l * Q.x + algebraMap F K₀ (y - l * x)), Q.y⟩ := by
  rw [eval_YClass, linePolynomial]
  simp only [eval₂_add, eval₂_mul, eval₂_sub, eval₂_C, eval₂_X]
  ext
  · simp
    ring
  · simp

end TwistPoint

variable {a b : F} {d : K₀} [nonsquare : Fact (∀ r : K₀, r ^ 2 ≠ d + 0 * r)]

namespace TwistPoint

/-- A value of the base field never meets a point of the twist: `d` would be a
square. -/
theorem x_ne (Q : TwistPoint a b d) {x y : F} (on : (short a b).Nonsingular x y) :
    Q.x - algebraMap F K₀ x ≠ 0 := by
  intro zero
  have same : Q.x = algebraMap F K₀ x := sub_eq_zero.mp zero
  have curve := congrArg (algebraMap F K₀) (short_nonsingular_eq on)
  have twist := Q.on
  rw [same] at twist
  simp only [map_add, map_mul, map_pow] at curve
  apply nonsquare.out (algebraMap F K₀ y / Q.y)
  have := Q.nonzero
  rw [zero_mul, add_zero]
  field_simp
  linear_combination curve - twist

theorem eval_vertical_ne_zero (Q : TwistPoint a b d) (A : (short a b).Point) :
    Q.eval (vertical A) ≠ 0 := by
  cases A with
  | zero => exact fun zero => one_ne_zero ((map_one Q.eval).symm.trans zero)
  | some x y on =>
      intro zero
      rw [vertical, eval_XClass] at zero
      exact Q.x_ne on ((map_eq_zero _).mp zero)

theorem of_eval_vertical (Q : TwistPoint a b d) (A : (short a b).Point) :
    ScalarClass.of K₀ (Q.eval (vertical A)) = 1 := by
  cases A with
  | zero =>
      change ScalarClass.of K₀ (Q.eval 1) = 1
      rw [map_one, ScalarClass.of_one]
  | some x y on => rw [vertical, eval_XClass, ScalarClass.of_algebraMap]

/-- Functions of one divisor have one value up to scalars. -/
theorem of_eval_eq_of_span_eq (Q : TwistPoint a b d) {f g : (short a b).CoordinateRing}
    (same : Ideal.span {f} = Ideal.span {g}) :
    ScalarClass.of K₀ (Q.eval f) = ScalarClass.of K₀ (Q.eval g) := by
  obtain ⟨c, nonzero, rfl⟩ := exists_const_of_span_eq same
  rw [map_mul, eval_const, ScalarClass.of_scalar_mul ((map_ne_zero _).mpr nonzero)]

variable [DecidableEq F]

theorem eval_line_ne_zero (Q : TwistPoint a b d) (A B : (short a b).Point) :
    Q.eval (line A B) ≠ 0 := by
  match A, B with
  | .zero, B => exact Q.eval_vertical_ne_zero B
  | .some x y on, .zero => exact Q.eval_vertical_ne_zero (.some x y on)
  | .some x₁ y₁ on₁, .some x₂ y₂ on₂ =>
      by_cases opposite : x₁ = x₂ ∧ y₁ = (short a b).negY x₂ y₂
      · rw [line_of_opposite opposite]
        exact Q.eval_vertical_ne_zero (.some x₁ y₁ on₁)
      · rw [line_of_not_opposite opposite, eval_YClass_line]
        intro zero
        exact Q.nonzero (congrArg QuadraticAlgebra.im zero)

/-- The values of the lines at a point of the twist. -/
noncomputable def cocycle (Q : TwistPoint a b d) :
    Cocycle (short a b).Point (ScalarClass K₀ (QuadraticAlgebra K₀ d 0)) where
  value A B := ScalarClass.of K₀ (Q.eval (line A B))
  zero_left A := by rw [line_zero_left, of_eval_vertical]
  comm A B := Q.of_eval_eq_of_span_eq (line_comm A B)
  assoc A B D := by
    have values := Q.of_eval_eq_of_span_eq (line_cocycle A B D)
    have left := Q.eval_line_ne_zero
    have up := Q.eval_vertical_ne_zero
    simpa only [map_mul, ScalarClass.of_mul (mul_ne_zero (left _ _) (left _ _)) (up _),
      ScalarClass.of_mul (left _ _) (left _ _), of_eval_vertical, mul_one] using values

theorem cocycle_value (Q : TwistPoint a b d) (A B : (short a b).Point) :
    Q.cocycle.value A B = ScalarClass.of K₀ (Q.eval (line A B)) := rfl

/-- The line through opposite points is vertical. -/
theorem cocycle_neg (Q : TwistPoint a b d) (A : (short a b).Point) :
    Q.cocycle.value A (-A) = 1 := by
  cases A with
  | zero => exact Q.cocycle.zero_left _
  | some x y on =>
      rw [cocycle_value, Point.neg_some,
        line_of_opposite ⟨rfl, ((short a b).negY_negY x y).symm⟩]
      exact Q.of_eval_vertical (.some x y on)

end TwistPoint

end Pbc.Elliptic
