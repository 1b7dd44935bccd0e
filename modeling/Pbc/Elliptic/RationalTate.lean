import Pbc.Elliptic.RationalNet
import Pbc.Elliptic.Secant

/-!
# Bilinearity of the symbol of lines at rational points

The symbol of the lines along the multiples of a point of order `r` is linear in the point,
since a product over `m r` steps is read in two ways, and additive in the point at which the
lines are evaluated, since the lines at a sum are those at the summands up to a coboundary.
-/

open WeierstrassCurve.Affine
open Pbc.Algebra

namespace Pbc.Elliptic

variable {F : Type*} [Field F] [DecidableEq F] {a b : F} {Q R T : FinitePoint a b}
  {M : Type*} [CommGroup M] {r : ℕ} (symbol : ResidueSymbol F M r) {P : (short a b).Point}

namespace FinitePoint

variable (avoids : ∀ k : ℤ, Q.eval (vertical (k • P)) ≠ 0)

/-- Every product of symbols is a root of unity. -/
theorem cocycle_power_pow (j : ℤ) (n : ℕ) : (Q.cocycle symbol avoids).power j n ^ r = 1 := by
  induction n with
  | zero => rw [Cocycle.power_zero, one_pow]
  | succ n ih => rw [Cocycle.power_succ, mul_pow, ih, one_mul, cocycle_value, symbol.of_root]

/-- Along the multiples of the order nothing is met. -/
theorem cocycle_power_order (order : r • P = 0) (n : ℕ) :
    (Q.cocycle symbol avoids).power (r • 1) n = 1 := by
  have zero (k : ℕ) : (k • (r • 1 : ℤ)) • P = 0 := by
    rw [smul_assoc, smul_assoc, one_zsmul, order, nsmul_zero]
  have whole : (r • 1 : ℤ) • P = 0 := by rw [smul_assoc, one_zsmul, order]
  induction n with
  | zero => exact Cocycle.power_zero _ _
  | succ n ih =>
    rw [Cocycle.power_succ, ih, one_mul, cocycle_value, zero, whole, chord, line_zero_left,
      add_zero, eval_vertical_zero, div_one, symbol.of_one]

/-- The multiples of a multiple are met along the first point. -/
theorem cocycle_nsmul (m : ℕ) (avoids' : ∀ k : ℤ, Q.eval (vertical (k • m • P)) ≠ 0) (j k : ℤ) :
    (Q.cocycle symbol avoids').value j k = (Q.cocycle symbol avoids).value (j * m) (k * m) := by
  rw [cocycle_value, cocycle_value, mul_smul, mul_smul, natCast_zsmul]

/-- The product along a multiple is a product along the multiples of it. -/
theorem cocycle_power_nsmul (m : ℕ) (avoids' : ∀ k : ℤ, Q.eval (vertical (k • m • P)) ≠ 0)
    (n : ℕ) : (Q.cocycle symbol avoids').power 1 n = (Q.cocycle symbol avoids).power (m • 1) n := by
  induction n with
  | zero => rw [Cocycle.power_zero, Cocycle.power_zero]
  | succ n ih =>
    have index : (n • (1 : ℤ)) * m = n • (m • 1 : ℤ) := by simp
    rw [Cocycle.power_succ, Cocycle.power_succ, ih, Q.cocycle_nsmul symbol avoids m avoids', index,
      one_mul, ← nsmul_one m]

/-- The symbol is linear in the point whose multiples are taken. -/
theorem power_order_nsmul (order : r • P = 0) (m : ℕ)
    (avoids' : ∀ k : ℤ, Q.eval (vertical (k • m • P)) ≠ 0) :
    (Q.cocycle symbol avoids').power 1 r = (Q.cocycle symbol avoids).power 1 r ^ m := by
  have byMultiple := (Q.cocycle symbol avoids).power_mul 1 m r
  have byOrder := (Q.cocycle symbol avoids).power_mul 1 r m
  rw [Q.cocycle_power_pow, one_mul] at byMultiple
  rw [Q.cocycle_power_order symbol avoids order, mul_one] at byOrder
  rw [Q.cocycle_power_nsmul symbol avoids m avoids', ← byMultiple, mul_comm, byOrder]

end FinitePoint

namespace Secant

variable (through : Secant Q R T) (avoidsQ : ∀ k : ℤ, Q.eval (vertical (k • P)) ≠ 0)
  (avoidsR : ∀ k : ℤ, R.eval (vertical (k • P)) ≠ 0)
  (avoidsT : ∀ k : ℤ, T.eval (vertical (k • P)) ≠ 0)

include avoidsR avoidsT in
/-- At the sum of two points the symbols are the products of those at the points, up to the
factors of the secant. -/
theorem cocycle_value_mul (j k : ℤ) : (T.cocycle symbol avoidsT).value j k =
    (through.cocycle symbol avoidsQ).value j k * (R.cocycle symbol avoidsR).value j k := by
  have regular (l : ℤ) : Regular R T (l • P) := ⟨avoidsR l, avoidsT l⟩
  have chordR := R.chord_ne_zero avoidsR j k
  rw [← through.of_chord_div_chord symbol avoidsQ j k (regular j) (regular k) (regular (j + k))
      (R.eval_line_ne_zero avoidsR j k), FinitePoint.cocycle_value, FinitePoint.cocycle_value,
    ← symbol.of_mul (div_ne_zero (T.chord_ne_zero avoidsT j k) chordR) chordR,
    div_mul_cancel₀ _ chordR]

include through in
/-- The symbol is additive in the point at which the lines are evaluated. -/
theorem power_order_add (order : r • P = 0) : (T.cocycle symbol avoidsT).power 1 r =
    (Q.cocycle symbol avoidsQ).power 1 r * (R.cocycle symbol avoidsR).power 1 r := by
  have product (n : ℕ) : (T.cocycle symbol avoidsT).power 1 n =
      (through.cocycle symbol avoidsQ).power 1 n * (R.cocycle symbol avoidsR).power 1 n := by
    induction n with
    | zero => rw [Cocycle.power_zero, Cocycle.power_zero, Cocycle.power_zero, one_mul]
    | succ n ih =>
      rw [Cocycle.power_succ, Cocycle.power_succ, Cocycle.power_succ, ih,
        through.cocycle_value_mul symbol avoidsQ avoidsR avoidsT, mul_mul_mul_comm]
  rw [product, through.power_order symbol avoidsQ order]

end Secant

namespace FinitePoint

omit [DecidableEq F] in
/-- A finite point of the group has coordinates. -/
theorem exists_point {A : (short a b).Point} (finite : A ≠ 0) :
    ∃ X : FinitePoint a b, X.point = A := by
  cases A with
  | zero => exact absurd rfl finite
  | some x y on => exact ⟨⟨x, y, on⟩, rfl⟩

/-- The symbol is linear in the point at which the lines are evaluated. -/
theorem power_order_nsmul_right (order : r • P = 0) {n : ℕ} (positive : 1 ≤ n)
    (proper : ∀ m, 0 < m → m ≤ n → m • Q.point ∉ AddSubgroup.zmultiples P)
    (outside : ∀ k : ℤ, k • P ≠ Q.point) {X : FinitePoint a b} (point : X.point = n • Q.point)
    (outsideX : ∀ k : ℤ, k • P ≠ X.point) :
    (X.cocycle symbol (X.avoids_of_outside outsideX)).power 1 r =
      (Q.cocycle symbol (Q.avoids_of_outside outside)).power 1 r ^ n := by
  induction n, positive using Nat.le_induction generalizing X with
  | base =>
    have same : X = Q := by
      rw [one_nsmul, FinitePoint.point, FinitePoint.point, Point.some.injEq] at point
      cases X
      cases Q
      simp only [FinitePoint.mk.injEq]
      exact point
    subst same
    rw [pow_one]
  | succ n positive ih =>
    have outsideY : ∀ k : ℤ, k • P ≠ n • Q.point := fun k equal =>
      proper n positive (by omega) (AddSubgroup.mem_zmultiples_iff.mpr ⟨k, equal⟩)
    have finite : n • Q.point ≠ 0 := fun zero => outsideY 0 (by rw [zero_zsmul, zero])
    obtain ⟨Y, below⟩ := exists_point finite
    rw [← below] at outsideY
    have sum : Y.point + Q.point = X.point := by rw [below, point, succ_nsmul]
    have through := secant sum
    rw [through.power_order_add symbol (Y.avoids_of_outside outsideY) (Q.avoids_of_outside outside)
        (X.avoids_of_outside outsideX) order,
      ih (fun m above bounded => proper m above (by omega)) below outsideY, pow_succ]

end FinitePoint

end Pbc.Elliptic
