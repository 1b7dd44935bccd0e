import Mathlib.GroupTheory.OrderOfElement
import Pbc.Elliptic.Tate

/-!
# Miller loops without denominators

An implementation keeps a line by three coefficients of the base field, scaled
to avoid a division, and multiplies the values of the lines it meets while it
adds multiples of a point. `Accumulates` is the invariant of such a loop: the
value is nonzero and is, up to scalars, the product of the lines along the
multiples of the point.
-/

open WeierstrassCurve.Affine
open Pbc.Algebra

namespace Pbc.Elliptic

section Multiples

variable {F : Type*} [Field F] [DecidableEq F] {a b : F} {P : (short a b).Point} {r : ℕ}

theorem addOrderOf_nsmul_self (order : addOrderOf P = r) : r • P = 0 :=
  order ▸ addOrderOf_nsmul_eq_zero P

/-- A multiple by a count that the order does not divide is finite. -/
theorem nsmul_ne_zero (order : addOrderOf P = r) {k : ℕ} (proper : ¬r ∣ k) : k • P ≠ 0 :=
  fun zero => proper (order ▸ addOrderOf_dvd_of_nsmul_eq_zero zero)

/-- A point whose order is not one is finite. -/
theorem ne_zero_of_order (order : addOrderOf P = r) (proper : r ≠ 1) : P ≠ 0 := by
  rintro rfl
  exact proper (order.symm.trans addOrderOf_zero)

/-- The proper multiples of a point of prime order have the same order. -/
theorem addOrderOf_nsmul_of_lt (prime : r.Prime) (order : addOrderOf P = r) {m : ℕ}
    (positive : 0 < m) (bounded : m < r) : addOrderOf (m • P) = r := by
  have coprime : r.Coprime m := Nat.coprime_of_lt_prime positive.ne' bounded prime
  exact (Nat.Coprime.addOrderOf_nsmul (order.symm ▸ coprime)).trans order

/-- A finite point has an order of at least two. -/
theorem two_le_order (odd : Odd r) (order : addOrderOf P = r) (finite : P ≠ 0) : 2 ≤ r := by
  have positive := odd.pos
  by_contra small
  have trivial : r = 1 := by omega
  exact finite (AddMonoid.addOrderOf_eq_one_iff.mp (order.trans trivial))

/-- For an odd order a finite multiple has coordinates, the second nonzero. -/
theorem exists_nsmul_eq_some_of_not_dvd (odd : Odd r) (order : addOrderOf P = r) {k : ℕ}
    (proper : ¬r ∣ k) : ∃ x y on, k • P = Point.some x y on ∧ y ≠ 0 := by
  have finite := nsmul_ne_zero order proper
  have whole : r • k • P = 0 := by
    rw [← mul_nsmul', mul_comm, mul_nsmul', addOrderOf_nsmul_self order, nsmul_zero]
  have off := offAxis_of_odd odd whole
  cases multiple : k • P with
  | zero => exact absurd multiple finite
  | some x y on =>
    rw [multiple] at off
    exact ⟨x, y, on, rfl, off⟩

/-- Below an odd order every multiple has coordinates, the second nonzero. -/
theorem exists_nsmul_eq_some (odd : Odd r) (order : addOrderOf P = r) {k : ℕ} (positive : 0 < k)
    (bounded : k < r) : ∃ x y on, k • P = Point.some x y on ∧ y ≠ 0 :=
  exists_nsmul_eq_some_of_not_dvd odd order (Nat.not_dvd_of_pos_of_lt positive bounded)

/-- A finite point with the abscissa of another is that point or its opposite. -/
theorem eq_or_add_eq_zero_of_x_eq {x y y₁ : F} {on : (short a b).Nonsingular x y}
    {on₁ : (short a b).Nonsingular x y₁} :
    Point.some x y₁ on₁ = .some x y on ∨ Point.some x y₁ on₁ + .some x y on = 0 := by
  by_cases equal : y₁ = y
  · subst equal
    exact Or.inl rfl
  · refine Or.inr (Point.add_of_Y_eq rfl ?_)
    rw [short_negY, eq_neg_iff_add_eq_zero]
    have first := short_nonsingular_eq on
    have second := short_nonsingular_eq on₁
    have product : (y₁ - y) * (y₁ + y) = 0 := by linear_combination second - first
    exact (mul_eq_zero.mp product).resolve_left (sub_ne_zero.mpr equal)

/-- A multiple other than the point and its opposite has another abscissa. -/
theorem nsmul_x_ne (order : addOrderOf P = r) {k : ℕ} (above : 1 < k) (below : k + 1 < r)
    {x y x₁ y₁ : F} {on : (short a b).Nonsingular x y} {on₁ : (short a b).Nonsingular x₁ y₁}
    (point : P = Point.some x y on) (multiple : k • P = Point.some x₁ y₁ on₁) : x₁ ≠ x := by
  intro same
  subst same
  have either : Point.some _ _ on₁ = .some _ _ on ∨ _ := eq_or_add_eq_zero_of_x_eq
  rcases either with equal | opposite
  · have fixed : k • P = P := multiple.trans (equal.trans point.symm)
    obtain ⟨j, rfl⟩ := Nat.exists_eq_add_of_le' (Nat.le_of_lt above)
    rw [succ_nsmul, add_eq_right] at fixed
    exact nsmul_ne_zero order (Nat.not_dvd_of_pos_of_lt (by omega) (by omega)) fixed
  · rw [← multiple, ← point, ← succ_nsmul] at opposite
    exact nsmul_ne_zero order (Nat.not_dvd_of_pos_of_lt (by omega) (by omega)) opposite

end Multiples

variable {F K₀ : Type*} [Field F] [Field K₀] [Algebra F K₀] {a b : F} {d : K₀}

/-- The line `A X + B Y + C` at the point `(X, Y s)`. -/
def lineAt (d : K₀) (A B C : F) (X Y : K₀) : QuadraticAlgebra K₀ d 0 :=
  ⟨algebraMap F K₀ A * X + algebraMap F K₀ C, algebraMap F K₀ B * Y⟩

theorem lineAt_smul (s A B C : F) (X Y : K₀) :
    lineAt d (s * A) (s * B) (s * C) X Y =
      algebraMap K₀ _ (algebraMap F K₀ s) * lineAt d A B C X Y := by
  ext
  · simp only [lineAt, QuadraticAlgebra.re_mul, QuadraticAlgebra.algebraMap_re,
      QuadraticAlgebra.algebraMap_im, map_mul]
    ring
  · simp only [lineAt, QuadraticAlgebra.im_mul, QuadraticAlgebra.algebraMap_re,
      QuadraticAlgebra.algebraMap_im, map_mul]
    ring

namespace TwistPoint

/-- A line off the axis keeps a nonzero value at a point of the twist. -/
theorem lineAt_ne_zero (Q : TwistPoint a b d) (A C : F) {B : F} (nonzero : B ≠ 0) :
    lineAt d A B C Q.x Q.y ≠ 0 :=
  fun zero => mul_ne_zero ((map_ne_zero _).mpr nonzero) Q.nonzero
    (congrArg QuadraticAlgebra.im zero)

variable [nonsquare : Fact (∀ r : K₀, r ^ 2 ≠ d + 0 * r)] [DecidableEq F]

/-- A nonzero value that is the line through two points up to scalars. -/
structure MeetsLine (Q : TwistPoint a b d) (A B : (short a b).Point)
    (v : QuadraticAlgebra K₀ d 0) : Prop where
  nonzero : v ≠ 0
  value : ScalarClass.of K₀ v = Q.cocycle.value A B

/-- Coefficients proportional to those of slope `l` through `(x, y)`. -/
theorem meetsLine_of_slope (Q : TwistPoint a b d) {x₁ y₁ x₂ y₂ : F}
    (on₁ : (short a b).Nonsingular x₁ y₁) (on₂ : (short a b).Nonsingular x₂ y₂)
    (opposite : ¬(x₁ = x₂ ∧ y₁ = (short a b).negY x₂ y₂)) {A B C : F} (nonzero : B ≠ 0)
    (slope : A = -(B * (short a b).slope x₁ x₂ y₁ y₂)) (intercept : C = -(A * x₁ + B * y₁)) :
    Q.MeetsLine (.some x₁ y₁ on₁) (.some x₂ y₂ on₂) (lineAt d A B C Q.x Q.y) where
  nonzero := Q.lineAt_ne_zero A C nonzero
  value := by
    have scaled : lineAt d A B C Q.x Q.y = algebraMap K₀ _ (algebraMap F K₀ B) *
        Q.eval (line (.some x₁ y₁ on₁) (.some x₂ y₂ on₂)) := by
      rw [line_of_not_opposite opposite, eval_YClass_line, intercept, slope]
      ext
      · simp only [lineAt, QuadraticAlgebra.re_mul, QuadraticAlgebra.algebraMap_re,
          QuadraticAlgebra.algebraMap_im, map_mul, map_neg, map_sub, map_add]
        ring
      · simp only [lineAt, QuadraticAlgebra.im_mul, QuadraticAlgebra.algebraMap_re,
          QuadraticAlgebra.algebraMap_im, map_neg]
        ring
    rw [scaled, ScalarClass.of_scalar_mul ((map_ne_zero _).mpr nonzero), cocycle_value]

/-- A multiple of the tangent `-(3 x^2 + a) X + 2 y Y + ((3 x^2 + a) x - 2 y^2)`. -/
theorem meetsLine_tangent (two : (2 : F) ≠ 0) (Q : TwistPoint a b d) {x y s : F}
    (on : (short a b).Nonsingular x y) (axis : y ≠ 0) (scale : s ≠ 0) {A B C : F}
    (slope : A = s * -(3 * x ^ 2 + a)) (ordinate : B = s * (2 * y))
    (intercept : C = s * ((3 * x ^ 2 + a) * x - 2 * y ^ 2)) :
    Q.MeetsLine (.some x y on) (.some x y on) (lineAt d A B C Q.x Q.y) := by
  have apart : y ≠ -y := by
    intro equal
    have doubled : 2 * y = 0 := by linear_combination equal
    exact mul_ne_zero two axis doubled
  have double : 2 * y ≠ 0 := mul_ne_zero two axis
  apply Q.meetsLine_of_slope on on fun equal => apart (equal.2.trans (short_negY x y))
  · rw [ordinate]
    exact mul_ne_zero scale double
  · rw [short_slope_self apart, slope, ordinate]
    field_simp
  · rw [intercept, slope, ordinate]
    ring

/-- A multiple of the chord through two points with distinct abscissas. -/
theorem meetsLine_chord (Q : TwistPoint a b d) {x₁ y₁ x₂ y₂ s : F}
    (on₁ : (short a b).Nonsingular x₁ y₁) (on₂ : (short a b).Nonsingular x₂ y₂)
    (distinct : x₁ ≠ x₂) (scale : s ≠ 0) {A B C : F} (slope : A = s * (y₁ - y₂))
    (ordinate : B = s * (x₂ - x₁)) (intercept : C = s * (y₂ * x₁ - y₁ * x₂)) :
    Q.MeetsLine (.some x₁ y₁ on₁) (.some x₂ y₂ on₂) (lineAt d A B C Q.x Q.y) := by
  have apart : x₁ - x₂ ≠ 0 := sub_ne_zero.mpr distinct
  apply Q.meetsLine_of_slope on₁ on₂ fun equal => distinct equal.1
  · rw [ordinate]
    exact mul_ne_zero scale (sub_ne_zero.mpr distinct.symm)
  · rw [short_slope_of_ne y₁ y₂ distinct, slope, ordinate]
    field_simp
    ring
  · rw [intercept, slope, ordinate]
    ring

/-- A value that a Miller loop has after it reached the multiple `k • P`. -/
structure Accumulates (Q : TwistPoint a b d) (P : (short a b).Point) (k : ℕ)
    (v : QuadraticAlgebra K₀ d 0) : Prop where
  nonzero : v ≠ 0
  value : ScalarClass.of K₀ v = Q.cocycle.power P k

namespace Accumulates

variable {Q : TwistPoint a b d} {P : (short a b).Point} {m n k : ℕ} {v w l : QuadraticAlgebra K₀ d 0}

theorem one : Q.Accumulates P 1 1 where
  nonzero := one_ne_zero
  value := by rw [ScalarClass.of_one, Cocycle.power_one]

theorem zero : Q.Accumulates P 0 1 where
  nonzero := one_ne_zero
  value := by rw [ScalarClass.of_one, Cocycle.power_zero]

/-- Adding two multiples multiplies both values and the line through them. -/
theorem add (first : Q.Accumulates P m v) (second : Q.Accumulates P n w)
    (line : Q.MeetsLine (m • P) (n • P) l) : Q.Accumulates P (m + n) (v * w * l) where
  nonzero := mul_ne_zero (mul_ne_zero first.nonzero second.nonzero) line.nonzero
  value := by
    rw [ScalarClass.of_mul (mul_ne_zero first.nonzero second.nonzero) line.nonzero,
      ScalarClass.of_mul first.nonzero second.nonzero, first.value, second.value, line.value,
      Cocycle.power_add]

theorem double (before : Q.Accumulates P k v) (line : Q.MeetsLine (k • P) (k • P) l) :
    Q.Accumulates P (2 * k) (v * v * l) := by
  rw [two_mul]
  exact before.add before line

theorem succ (before : Q.Accumulates P k v) (line : Q.MeetsLine (k • P) P l) :
    Q.Accumulates P (k + 1) (v * l) := by
  have single : Q.MeetsLine (k • P) (1 • P) l := by rwa [one_nsmul]
  simpa only [mul_one] using before.add one single

/-- The last step adds the opposite point; its line is vertical and left out. -/
theorem last (before : Q.Accumulates P k v) (order : (k + 1) • P = 0) :
    Q.Accumulates P (k + 1) v where
  nonzero := before.nonzero
  value := by
    rw [succ_nsmul] at order
    rw [Cocycle.power_succ, ← neg_eq_of_add_eq_zero_left order, Cocycle.comm, cocycle_neg,
      mul_one, before.value]

/-- Subtracting a multiple divides by its value. -/
theorem sub (first : Q.Accumulates P m v) (second : Q.Accumulates P n w) (ordered : n ≤ m)
    (line : Q.MeetsLine (m • P) (-(n • P)) l) : Q.Accumulates P (m - n) (v * w⁻¹ * l) where
  nonzero := mul_ne_zero (mul_ne_zero first.nonzero (inv_ne_zero second.nonzero)) line.nonzero
  value := by
    rw [ScalarClass.of_mul (mul_ne_zero first.nonzero (inv_ne_zero second.nonzero)) line.nonzero,
      ScalarClass.of_mul first.nonzero (inv_ne_zero second.nonzero), ScalarClass.of_inv,
      first.value, second.value, line.value, Q.cocycle.power_sub Q.cocycle_neg P ordered]

/-- One step beyond the order adds the point at infinity, whose line is vertical. -/
theorem beyond (after : Q.Accumulates P (k + 1) v) (order : k • P = 0) :
    Q.Accumulates P k v where
  nonzero := after.nonzero
  value := by rw [after.value, Cocycle.power_succ, order, Cocycle.value_zero_left, mul_one]

/-- A nonzero scalar changes nothing. -/
theorem scalar_mul (before : Q.Accumulates P k v) {c : K₀} (nonzero : c ≠ 0) :
    Q.Accumulates P k (algebraMap K₀ _ c * v) where
  nonzero := mul_ne_zero ((map_ne_zero _).mpr nonzero) before.nonzero
  value := by rw [ScalarClass.of_scalar_mul nonzero, before.value]

end Accumulates

theorem eval_lineProduct_ne_zero (Q : TwistPoint a b d) (P : (short a b).Point) (n : ℕ) :
    Q.eval (lineProduct P n) ≠ 0 := by
  induction n with
  | zero =>
    rw [lineProduct, map_one]
    exact one_ne_zero
  | succ n ih =>
    rw [lineProduct, map_mul]
    exact mul_ne_zero ih (Q.eval_line_ne_zero _ _)

theorem of_eval_lineProduct (Q : TwistPoint a b d) (P : (short a b).Point) (n : ℕ) :
    ScalarClass.of K₀ (Q.eval (lineProduct P n)) = Q.cocycle.power P n := by
  induction n with
  | zero => rw [lineProduct, map_one, ScalarClass.of_one, Cocycle.power_zero]
  | succ n ih =>
    rw [lineProduct, map_mul, ScalarClass.of_mul (Q.eval_lineProduct_ne_zero P n)
      (Q.eval_line_ne_zero _ _), ih, Cocycle.power_succ, cocycle_value]

theorem of_eval_verticalProduct (Q : TwistPoint a b d) (P : (short a b).Point) (n : ℕ) :
    Q.eval (verticalProduct P n) ≠ 0 ∧ ScalarClass.of K₀ (Q.eval (verticalProduct P n)) = 1 := by
  induction n with
  | zero =>
    rw [verticalProduct, map_one]
    exact ⟨one_ne_zero, ScalarClass.of_one⟩
  | succ n ih =>
    have up := Q.eval_vertical_ne_zero ((n + 1) • P)
    rw [verticalProduct, map_mul]
    refine ⟨mul_ne_zero ih.1 up, ?_⟩
    rw [ScalarClass.of_mul ih.1 up, ih.2, of_eval_vertical, one_mul]

/-- Every function with the divisor of a Miller loop has its value, up to scalars. -/
theorem accumulates_of_isMillerFunction (Q : TwistPoint a b d) {P : (short a b).Point} {r : ℕ}
    (order : r • P = 0) {f : (short a b).CoordinateRing} (miller : IsMillerFunction P r f) :
    Q.Accumulates P r (Q.eval f) := by
  obtain ⟨g, other, product⟩ := exists_millerFunction order
  obtain ⟨up, vertical⟩ := Q.of_eval_verticalProduct P r
  have values := congrArg Q.eval product
  rw [map_mul] at values
  have gNonzero : Q.eval g ≠ 0 := by
    intro zero
    rw [zero, mul_zero] at values
    exact Q.eval_lineProduct_ne_zero P r values
  obtain ⟨c, nonzero, rfl⟩ := exists_const_of_span_eq (miller.trans other.symm)
  rw [map_mul, eval_const]
  refine Accumulates.scalar_mul ⟨gNonzero, ?_⟩ ((map_ne_zero _).mpr nonzero)
  rw [← Q.of_eval_lineProduct, values, ScalarClass.of_mul up gNonzero, vertical, one_mul]

end TwistPoint

end Pbc.Elliptic
