import Pbc.Elliptic.Twist

/-!
# Bilinearity of the twisted Tate value

The cocycle of the lines at a point of the twist is multiplied along the
multiples of a point of order `r`. It is linear in the point of the curve by
`Cocycle.power_nsmul`. For the point of the twist, the lines at three collinear
points multiply to a coboundary by reciprocity of the two lines, so their
product along the multiples is an `r`-th power.
-/

open WeierstrassCurve.Affine WeierstrassCurve.Affine.CoordinateRing
open Pbc.Algebra

namespace Pbc.Elliptic

variable {F K₀ : Type*} [Field F] [Field K₀] [Algebra F K₀] {a b : F} {d : K₀}

/-- Three points of the twist on one line `y = slope x + intercept`. -/
structure TwistLine (Q₁ Q₂ Q₃ : TwistPoint a b d) where
  slope : K₀
  intercept : K₀
  first : Q₁.y = slope * Q₁.x + intercept
  second : Q₂.y = slope * Q₂.x + intercept
  third : Q₃.y = slope * Q₃.x + intercept
  collinear : Collinear (algebraMap F K₀ a) (algebraMap F K₀ b) d slope intercept Q₁.x Q₂.x Q₃.x

/-- The untwisted line at a point of the curve, one at infinity. -/
def TwistLine.at {Q₁ Q₂ Q₃ : TwistPoint a b d} (line : TwistLine Q₁ Q₂ Q₃) :
    (short a b).Point → QuadraticAlgebra K₀ d 0
  | .zero => 1
  | .some x y _ => ⟨algebraMap F K₀ y, -(line.slope * algebraMap F K₀ x + line.intercept)⟩

private theorem eq_mul_mul_of_mul_eq_one {M : Type*} [CommGroup M] {u v : M} (inverse : u * v = 1)
    (w : M) : w = v * (w * u) := by
  rw [mul_left_comm, mul_comm v, inverse, mul_one]

/-- A point at infinity or outside the axis of abscissas. -/
def OffAxis {R : Type*} [CommRing R] {W : WeierstrassCurve.Affine R} : W.Point → Prop
  | .zero => True
  | .some _ y _ => y ≠ 0

theorem OffAxis.neg {R : Type*} [CommRing R] {a b : R} {A : (short a b).Point}
    (off : OffAxis A) : OffAxis (-A) := by
  cases A with
  | zero => trivial
  | some x y on =>
      rw [Point.neg_some]
      simpa [OffAxis] using off

private theorem nsmul_nsmul_eq_zero {G : Type*} [AddCommGroup G] {r : ℕ} {A : G}
    (order : r • A = 0) (k : ℕ) : r • k • A = 0 := by
  rw [← mul_nsmul', mul_comm, mul_nsmul', order, nsmul_zero]

/-- A point of odd order is outside the axis. -/
theorem offAxis_of_odd [DecidableEq F] {r : ℕ} (odd : Odd r) {A : (short a b).Point}
    (order : r • A = 0) : OffAxis A := by
  cases A with
  | zero => trivial
  | some x y on =>
      intro zero
      subst zero
      have double : (2 : ℕ) • (Point.some x 0 on) = 0 := by
        rw [two_nsmul]
        exact Point.add_self_of_Y_eq (by simp)
      obtain ⟨k, rfl⟩ := odd
      rw [add_nsmul, mul_nsmul, double, nsmul_zero, zero_add, one_nsmul] at order
      exact Point.some_ne_zero on order

variable [nonsquare : Fact (∀ r : K₀, r ^ 2 ≠ d + 0 * r)]

namespace TwistPoint

variable [DecidableEq F]

/-- At the opposite point every line takes the conjugate value. -/
theorem eval_neg_line (Q : TwistPoint a b d) (A B : (short a b).Point) :
    Q.neg.eval (line A B) = star (Q.eval (line A B)) := by
  have verticals : ∀ D : (short a b).Point, Q.neg.eval (vertical D) = star (Q.eval (vertical D)) := by
    rintro (_ | ⟨x, y, on⟩)
    · change Q.neg.eval 1 = star (Q.eval 1)
      rw [map_one, map_one, star_one]
    · rw [vertical, eval_XClass, eval_XClass]
      ext <;> simp
  rcases A with _ | ⟨x₁, y₁, on₁⟩
  · exact verticals B
  rcases B with _ | ⟨x₂, y₂, on₂⟩
  · exact verticals (.some x₁ y₁ on₁)
  · by_cases opposite : x₁ = x₂ ∧ y₁ = (short a b).negY x₂ y₂
    · rw [line_of_opposite opposite]
      exact verticals (.some x₁ y₁ on₁)
    · rw [line_of_not_opposite opposite, eval_YClass_line, eval_YClass_line]
      ext <;> simp

omit [DecidableEq F] in
/-- A value times its conjugate is a scalar. -/
theorem of_mul_star {x : QuadraticAlgebra K₀ d 0} (nonzero : x ≠ 0) :
    ScalarClass.of K₀ (star x) * ScalarClass.of K₀ x = 1 := by
  have conjugate : star x ≠ 0 := star_ne_zero.mpr nonzero
  rw [← ScalarClass.of_mul conjugate nonzero, mul_comm,
    ← QuadraticAlgebra.algebraMap_norm_eq_mul_star, ScalarClass.of_algebraMap]

theorem power_neg (Q : TwistPoint a b d) (A : (short a b).Point) (n : ℕ) :
    Q.neg.cocycle.power A n * Q.cocycle.power A n = 1 := by
  induction n with
  | zero => simp
  | succ n ih =>
      have step : Q.neg.cocycle.value (n • A) A * Q.cocycle.value (n • A) A = 1 := by
        rw [cocycle_value, cocycle_value, eval_neg_line]
        exact of_mul_star (Q.eval_line_ne_zero _ _)
      rw [Cocycle.power_succ, Cocycle.power_succ, mul_mul_mul_comm, ih, step, one_mul]

end TwistPoint

namespace TwistLine

variable {Q₁ Q₂ Q₃ : TwistPoint a b d}

omit nonsquare in
theorem at_ne_zero (line : TwistLine Q₁ Q₂ Q₃) {A : (short a b).Point} (off : OffAxis A) :
    line.at A ≠ 0 := by
  cases A with
  | zero => exact one_ne_zero
  | some x y on =>
      intro zero
      exact off ((map_eq_zero _).mp (congrArg QuadraticAlgebra.re zero))

omit nonsquare in
theorem at_mul_at_neg (line : TwistLine Q₁ Q₂ Q₃) (A : (short a b).Point) :
    ∃ c : K₀, line.at A * line.at (-A) = algebraMap K₀ (QuadraticAlgebra K₀ d 0) c := by
  cases A with
  | zero => exact ⟨1, by simp [TwistLine.at, Point.neg_def, Point.neg]⟩
  | some x y on =>
      refine ⟨-(algebraMap F K₀ y) ^ 2 +
        d * (line.slope * algebraMap F K₀ x + line.intercept) ^ 2, ?_⟩
      rw [Point.neg_some]
      simp only [TwistLine.at, short_negY, map_neg]
      apply QuadraticAlgebra.ext
      · simp only [QuadraticAlgebra.re_mul, QuadraticAlgebra.algebraMap_re]
        ring
      · simp only [QuadraticAlgebra.im_mul, QuadraticAlgebra.algebraMap_im]
        ring

theorem of_at_neg (line : TwistLine Q₁ Q₂ Q₃) {A : (short a b).Point} (off : OffAxis A) :
    ScalarClass.of K₀ (line.at A) * ScalarClass.of K₀ (line.at (-A)) = 1 := by
  obtain ⟨c, equal⟩ := line.at_mul_at_neg A
  rw [← ScalarClass.of_mul (line.at_ne_zero off) (line.at_ne_zero off.neg), equal,
    ScalarClass.of_algebraMap]

variable [DecidableEq F]

/-- The chord or tangent through two points of the curve, multiplied over three
points of a line, is the line multiplied over its three points. -/
theorem prod_eval_chord (line : TwistLine Q₁ Q₂ Q₃) {x₁ y₁ x₂ y₂ : F}
    (on₁ : (short a b).Nonsingular x₁ y₁) (on₂ : (short a b).Nonsingular x₂ y₂)
    (opposite : ¬(x₁ = x₂ ∧ y₁ = (short a b).negY x₂ y₂)) :
    Q₁.eval (Elliptic.line (.some x₁ y₁ on₁) (.some x₂ y₂ on₂)) *
        Q₂.eval (Elliptic.line (.some x₁ y₁ on₁) (.some x₂ y₂ on₂)) *
        Q₃.eval (Elliptic.line (.some x₁ y₁ on₁) (.some x₂ y₂ on₂)) =
      -(line.at (.some x₁ y₁ on₁) * line.at (.some x₂ y₂ on₂) *
        line.at (-(.some x₁ y₁ on₁ + .some x₂ y₂ on₂))) := by
  have passes := slope_passes on₁.left on₂.left opposite
  have chord := collinear_slope on₁.left on₂.left opposite
  simp only [line_of_not_opposite opposite, TwistPoint.eval_YClass_line]
  rw [Point.add_some opposite, Point.neg_some]
  simp only [TwistLine.at, addY, negY_negY, negAddY]
  generalize (short a b).slope x₁ x₂ y₁ y₂ = l at *
  generalize (short a b).addX x₁ x₂ l = x₃ at *
  let up := algebraMap F (QuadraticAlgebra K₀ d 0)
  let wide := algebraMap K₀ (QuadraticAlgebra K₀ d 0)
  have tower : ∀ c, wide (algebraMap F K₀ c) = up c := fun _ => rfl
  have root : (⟨0, 1⟩ : QuadraticAlgebra K₀ d 0) ^ 2 = wide d := by
    rw [sq]
    ext <;> simp [wide]
  have curve : Collinear (up a) (up b) 1 (up l) (up (y₁ - l * x₁)) (up x₁) (up x₂) (up x₃) := by
    constructor
    · simpa using congrArg up chord.sum
    · simpa [map_ofNat] using congrArg up chord.pairs
    · simpa using congrArg up chord.product
  have twist : Collinear (up a) (up b) (wide d) (wide line.slope) (wide line.intercept)
      (wide Q₁.x) (wide Q₂.x) (wide Q₃.x) := by
    constructor
    · simpa using congrArg wide line.collinear.sum
    · simpa [map_ofNat, tower] using congrArg wide line.collinear.pairs
    · simpa [tower] using congrArg wide line.collinear.product
  have reciprocal := Collinear.reciprocity root curve twist
  have value : ∀ Q : TwistPoint a b d, Q.y = line.slope * Q.x + line.intercept →
      (⟨-(algebraMap F K₀ l * Q.x + algebraMap F K₀ (y₁ - l * x₁)), Q.y⟩ :
        QuadraticAlgebra K₀ d 0) =
      (wide line.slope * wide Q.x + wide line.intercept) * ⟨0, 1⟩ -
        (up l * wide Q.x + up (y₁ - l * x₁)) := by
    intro Q on
    rw [on]
    ext <;> simp [up, wide]
  have side : ∀ x y : F, y = l * x + (y₁ - l * x₁) →
      (⟨algebraMap F K₀ y, -(line.slope * algebraMap F K₀ x + line.intercept)⟩ :
        QuadraticAlgebra K₀ d 0) =
      up l * up x + up (y₁ - l * x₁) -
        (wide line.slope * up x + wide line.intercept) * ⟨0, 1⟩ := by
    rintro x y rfl
    ext <;> simp [up, wide]
  rw [value Q₁ line.first, value Q₂ line.second, value Q₃ line.third, reciprocal,
    side x₁ y₁ (by ring), side x₂ y₂ passes, side x₃ (l * (x₃ - x₁) + y₁) (by ring)]

/-- Over three points of a line the cocycles multiply to a coboundary. -/
theorem prod_value (line : TwistLine Q₁ Q₂ Q₃) {A B : (short a b).Point} (offA : OffAxis A)
    (offB : OffAxis B) (offSum : OffAxis (A + B)) :
    Q₁.cocycle.value A B * Q₂.cocycle.value A B * Q₃.cocycle.value A B *
        ScalarClass.of K₀ (line.at (A + B)) =
      ScalarClass.of K₀ (line.at A) * ScalarClass.of K₀ (line.at B) := by
  have infinity : ScalarClass.of K₀ (line.at 0) = 1 := ScalarClass.of_one
  by_cases sum : A + B = 0
  · obtain rfl := neg_eq_of_add_eq_zero_right sum
    rw [sum, infinity, line.of_at_neg offA]
    simp only [TwistPoint.cocycle_neg, mul_one]
  match A, B with
  | .zero, B =>
      change Q₁.cocycle.value 0 B * Q₂.cocycle.value 0 B * Q₃.cocycle.value 0 B *
          ScalarClass.of K₀ (line.at (0 + B)) = ScalarClass.of K₀ (line.at 0) * _
      simp [infinity]
  | .some x y on, .zero =>
      change Q₁.cocycle.value (.some x y on) 0 * Q₂.cocycle.value _ 0 * Q₃.cocycle.value _ 0 *
          ScalarClass.of K₀ (line.at (.some x y on + 0)) = _ * ScalarClass.of K₀ (line.at 0)
      simp [infinity]
  | .some x₁ y₁ on₁, .some x₂ y₂ on₂ =>
      have opposite : ¬(x₁ = x₂ ∧ y₁ = (short a b).negY x₂ y₂) :=
        fun equal => sum (Point.add_of_Y_eq equal.1 equal.2)
      have product := congrArg (ScalarClass.of K₀)
        (line.prod_eval_chord on₁ on₂ opposite)
      generalize Point.some x₁ y₁ on₁ = A at *
      generalize Point.some x₂ y₂ on₂ = B at *
      have chord : ∀ Q : TwistPoint a b d, Q.eval (Elliptic.line A B) ≠ 0 :=
        fun Q => Q.eval_line_ne_zero A B
      have sides := mul_ne_zero (line.at_ne_zero offA) (line.at_ne_zero offB)
      have third := line.at_ne_zero offSum.neg
      rw [ScalarClass.of_mul (mul_ne_zero (chord _) (chord _)) (chord _),
        ScalarClass.of_mul (chord _) (chord _), ScalarClass.of_neg,
        ScalarClass.of_mul sides third,
        ScalarClass.of_mul (line.at_ne_zero offA) (line.at_ne_zero offB)] at product
      simp only [TwistPoint.cocycle_value]
      rw [product, mul_assoc, mul_comm (ScalarClass.of K₀ (line.at (-(A + B)))),
        line.of_at_neg offSum, mul_one]

/-- Along the multiples of a point outside the axis the products at three points
of a line are, up to the line at the last multiple, a power. -/
theorem prod_power (line : TwistLine Q₁ Q₂ Q₃) {A : (short a b).Point}
    (off : ∀ n : ℕ, OffAxis (n • A)) (n : ℕ) :
    Q₁.cocycle.power A n * Q₂.cocycle.power A n * Q₃.cocycle.power A n *
        ScalarClass.of K₀ (line.at (n • A)) =
      ScalarClass.of K₀ (line.at A) ^ n := by
  induction n with
  | zero =>
      rw [zero_smul, pow_zero]
      simp only [Cocycle.power_zero, one_mul]
      exact ScalarClass.of_one
  | succ n ih =>
      have offA : OffAxis A := one_nsmul A ▸ off 1
      have offSum : OffAxis (n • A + A) := succ_nsmul A n ▸ off (n + 1)
      have step := line.prod_value (off n) offA offSum
      rw [← succ_nsmul] at step
      simp only [Cocycle.power_succ]
      calc Q₁.cocycle.power A n * Q₁.cocycle.value (n • A) A *
              (Q₂.cocycle.power A n * Q₂.cocycle.value (n • A) A) *
              (Q₃.cocycle.power A n * Q₃.cocycle.value (n • A) A) *
              ScalarClass.of K₀ (line.at ((n + 1) • A))
          = Q₁.cocycle.power A n * Q₂.cocycle.power A n * Q₃.cocycle.power A n *
              (Q₁.cocycle.value (n • A) A * Q₂.cocycle.value (n • A) A *
                Q₃.cocycle.value (n • A) A * ScalarClass.of K₀ (line.at ((n + 1) • A))) := by
            ac_rfl
        _ = ScalarClass.of K₀ (line.at A) ^ n * ScalarClass.of K₀ (line.at A) := by
            rw [step, ← ih]
            simp only [mul_assoc]
        _ = _ := (pow_succ _ n).symm

end TwistLine

section Pairing

variable (a b d) in
/-- The quadratic twist over the even field. -/
abbrev twistCurve : WeierstrassCurve.Affine K₀ :=
  short (algebraMap F K₀ a * d ^ 2) (algebraMap F K₀ b * d ^ 3)

omit nonsquare in
theorem ne_zero_of_nonsquare [nonsquare : Fact (∀ r : K₀, r ^ 2 ≠ d + 0 * r)] : d ≠ 0 := by
  rintro rfl
  exact nonsquare.out 0 (by simp)

/-- The point `(x / d, y / d^2)` that stands for a point of the twist. -/
def TwistPoint.untwist {x y : K₀} (on : (twistCurve a b d).Nonsingular x y) (nonzero : y ≠ 0) :
    TwistPoint a b d where
  x := x * d⁻¹
  y := y * (d⁻¹ * d⁻¹)
  on := by
    have twist := short_nonsingular_eq on
    have unit : d ≠ 0 := ne_zero_of_nonsquare
    field_simp
    linear_combination twist
  nonzero := mul_ne_zero nonzero (mul_ne_zero (inv_ne_zero ne_zero_of_nonsquare)
    (inv_ne_zero ne_zero_of_nonsquare))

variable [DecidableEq F] [DecidableEq K₀]

/-- The product of the lines along `0, P, ..., rP` at a point of the twist. -/
noncomputable def tate (r : ℕ) (P : (short a b).Point) :
    (twistCurve a b d).Point → ScalarClass K₀ (QuadraticAlgebra K₀ d 0)
  | .zero => 1
  | .some _ _ on =>
      if nonzero : _ ≠ 0 then (TwistPoint.untwist on nonzero).cocycle.power P r else 1

theorem tate_some (r : ℕ) (P : (short a b).Point) {x y : K₀}
    (on : (twistCurve a b d).Nonsingular x y) (nonzero : y ≠ 0) :
    tate r P (.some x y on) = (TwistPoint.untwist on nonzero).cocycle.power P r :=
  dif_pos nonzero

@[simp] theorem tate_zero_right (r : ℕ) (P : (short a b).Point) :
    tate r P (0 : (twistCurve a b d).Point) = 1 := rfl

theorem tate_neg (r : ℕ) (P : (short a b).Point) {Q : (twistCurve a b d).Point}
    (off : OffAxis Q) : tate r P (-Q) * tate r P Q = 1 := by
  cases Q with
  | zero => exact one_mul _
  | some x y on =>
      have opposite : (twistCurve a b d).Nonsingular x (-y) := by
        simpa using (nonsingular_neg x y).mpr on
      have same : -(Point.some x y on) = Point.some x (-y) opposite := by
        rw [Point.neg_some, Point.some.injEq]
        simp
      have point : TwistPoint.untwist opposite (neg_ne_zero.mpr off) =
          (TwistPoint.untwist (a := a) (b := b) on off).neg := by
        simp [TwistPoint.untwist, TwistPoint.neg]
      rw [same, tate_some r P opposite (neg_ne_zero.mpr off), tate_some r P on off, point]
      exact TwistPoint.power_neg _ P r

/-- Up to an `r`-th power the product is additive in the point of the twist. -/
theorem exists_tate_mul {r : ℕ} {P : (short a b).Point} (off : ∀ n : ℕ, OffAxis (n • P))
    (order : r • P = 0) {Q₁ Q₂ : (twistCurve a b d).Point} (off₁ : OffAxis Q₁)
    (off₂ : OffAxis Q₂) (offSum : OffAxis (Q₁ + Q₂)) :
    ∃ z, tate r P Q₁ * tate r P Q₂ = tate r P (Q₁ + Q₂) * z ^ r := by
  by_cases sum : Q₁ + Q₂ = 0
  · obtain rfl := neg_eq_of_add_eq_zero_right sum
    exact ⟨1, by rw [sum, tate_zero_right, mul_comm, tate_neg r P off₁, one_pow, mul_one]⟩
  match Q₁, Q₂ with
  | .zero, Q₂ =>
      refine ⟨1, ?_⟩
      change tate r P 0 * tate r P Q₂ = tate r P (0 + Q₂) * 1 ^ r
      simp
  | .some x y on, .zero =>
      refine ⟨1, ?_⟩
      change tate r P _ * tate r P 0 = tate r P (Point.some x y on + 0) * 1 ^ r
      simp
  | .some x₁ y₁ on₁, .some x₂ y₂ on₂ =>
      have opposite : ¬(x₁ = x₂ ∧ y₁ = (twistCurve a b d).negY x₂ y₂) :=
        fun equal => sum (Point.add_of_Y_eq equal.1 equal.2)
      have inverse := tate_neg r P offSum
      have offThird := offSum.neg
      have onThird := (nonsingular_neg _ _).mpr (nonsingular_add on₁ on₂ opposite)
      rw [Point.add_some opposite, Point.neg_some] at inverse offThird
      rw [Point.add_some opposite]
      have unit : d ≠ 0 := ne_zero_of_nonsquare
      have passes := slope_passes on₁.left on₂.left opposite
      have chord := collinear_slope on₁.left on₂.left opposite
      let line : TwistLine (TwistPoint.untwist on₁ off₁) (TwistPoint.untwist on₂ off₂)
          (TwistPoint.untwist onThird offThird) := {
        slope := (twistCurve a b d).slope x₁ x₂ y₁ y₂ * d⁻¹
        intercept := (y₁ - (twistCurve a b d).slope x₁ x₂ y₁ y₂ * x₁) * (d⁻¹ * d⁻¹)
        first := by
          simp only [TwistPoint.untwist]
          ring
        second := by
          simp only [TwistPoint.untwist]
          linear_combination d⁻¹ * d⁻¹ * passes
        third := by
          simp only [TwistPoint.untwist, addY, negY_negY, negAddY]
          ring
        collinear := by
          simp only [TwistPoint.untwist]
          constructor
          · have sum := chord.sum
            field_simp
            linear_combination sum
          · have pairs := chord.pairs
            field_simp
            linear_combination pairs
          · have product := chord.product
            field_simp
            linear_combination product }
      have power := line.prod_power off r
      rw [order] at power
      refine ⟨ScalarClass.of K₀ (line.at P), ?_⟩
      have infinity : ScalarClass.of K₀ (line.at 0) = 1 := ScalarClass.of_one
      rw [infinity, mul_one] at power
      rw [tate_some r P onThird offThird] at inverse
      rw [← power, tate_some r P on₁ off₁, tate_some r P on₂ off₂]
      exact eq_mul_mul_of_mul_eq_one inverse _

variable {M : Type*} [CommGroup M] {φ : ScalarClass K₀ (QuadraticAlgebra K₀ d 0) →* M} {r : ℕ}

/-- Linearity in the point of the twist, after a map that kills `r`-th powers. -/
theorem map_tate_nsmul_right (roots : ∀ z, φ z ^ r = 1) {P : (short a b).Point}
    (offP : ∀ n : ℕ, OffAxis (n • P)) (order : r • P = 0) {Q : (twistCurve a b d).Point}
    (offQ : ∀ n : ℕ, OffAxis (n • Q)) (n : ℕ) :
    φ (tate r P (n • Q)) = φ (tate r P Q) ^ n := by
  induction n with
  | zero => rw [zero_smul, tate_zero_right, map_one, pow_zero]
  | succ n ih =>
      have offOne : OffAxis Q := one_nsmul Q ▸ offQ 1
      have offSum : OffAxis (n • Q + Q) := succ_nsmul Q n ▸ offQ (n + 1)
      obtain ⟨z, equal⟩ := exists_tate_mul offP order (offQ n) offOne offSum
      have image := congrArg φ equal
      rw [map_mul, map_mul, map_pow, roots, mul_one, ih, ← succ_nsmul] at image
      rw [← image, pow_succ]

omit [DecidableEq K₀] in
/-- Linearity in the point of the curve, after a map that kills `r`-th powers. -/
theorem map_power_nsmul (roots : ∀ z, φ z ^ r = 1) (Q : TwistPoint a b d)
    {P : (short a b).Point} (order : r • P = 0) (n : ℕ) :
    φ (Q.cocycle.power (n • P) r) = φ (Q.cocycle.power P r) ^ n := by
  have linear := congrArg φ (Q.cocycle.power_nsmul P order n)
  rwa [map_mul, map_pow, map_pow, roots, mul_one] at linear

theorem map_tate_nsmul_left (roots : ∀ z, φ z ^ r = 1) {P : (short a b).Point}
    (order : r • P = 0) (Q : (twistCurve a b d).Point) (n : ℕ) :
    φ (tate r (n • P) Q) = φ (tate r P Q) ^ n := by
  cases Q with
  | zero =>
      change φ 1 = φ 1 ^ n
      rw [map_one, one_pow]
  | some x y on =>
      by_cases nonzero : y ≠ 0
      · rw [tate_some r _ on nonzero, tate_some r _ on nonzero]
        exact map_power_nsmul roots _ order n
      · simp only [tate, dif_neg nonzero, map_one, one_pow]

/-- The reduced value is bilinear on the points of odd order `r`. -/
theorem map_tate_bilinear (roots : ∀ z, φ z ^ r = 1) (odd : Odd r) {P : (short a b).Point}
    (orderP : r • P = 0) {Q : (twistCurve a b d).Point} (orderQ : r • Q = 0) (m n : ℕ) :
    φ (tate r (m • P) (n • Q)) = φ (tate r P Q) ^ (m * n) := by
  have offP : ∀ k : ℕ, OffAxis (k • P) := fun k => offAxis_of_odd odd (nsmul_nsmul_eq_zero orderP k)
  have offQ : ∀ k : ℕ, OffAxis (k • Q) := fun k => offAxis_of_odd odd (nsmul_nsmul_eq_zero orderQ k)
  rw [map_tate_nsmul_left roots orderP, map_tate_nsmul_right roots offP orderP offQ,
    ← pow_mul, mul_comm n]

end Pairing

end Pbc.Elliptic
