import Pbc.Elliptic.Division

/-!
# Elliptic nets at a point of the twist

The terms of an elliptic net with one second index are kept up to the scalars of the
even field: a term with first index `k` has the class of the lines along the `k`-th
multiple. What the recurrences need exactly is only the product of two neighbours of a
term, which is its square times the distance from the abscissa of the first point to
that of the sum of its multiple and the second point.
-/

open WeierstrassCurve.Affine
open Pbc.Algebra

namespace Pbc.Elliptic

section Extension

variable {F : Type*} [Field F] [DecidableEq F] (a b : F) (L : Type*) [Field L] [DecidableEq L]
  [Algebra F L]

private theorem exists_extend :
    ∃ extend : (short a b).Point →+ (short (algebraMap F L a) (algebraMap F L b)).Point,
      ∀ {x y : F} (on : (short a b).Nonsingular x y), ∃ on',
        extend (.some x y on) = .some (algebraMap F L x) (algebraMap F L y) on' := by
  have whole (V : WeierstrassCurve.Affine F) (W : WeierstrassCurve.Affine L)
      (source : (short a b).baseChange F = V) (target : (short a b).baseChange L = W) :
      ∃ extend : V.Point →+ W.Point, ∀ {x y : F} (on : V.Nonsingular x y), ∃ on',
        extend (.some x y on) = .some (algebraMap F L x) (algebraMap F L y) on' := by
    subst source target
    let extend : ((short a b).baseChange F).Point →+ ((short a b).baseChange L).Point :=
      Point.map (Algebra.ofId F L)
    exact ⟨extend, fun on => ⟨_, Point.map_some _ on⟩⟩
  apply whole
  · rfl
  · ext
    · exact map_zero _
    · exact map_zero _
    · exact map_zero _
    · rfl
    · rfl

/-- A point over an extension field. -/
noncomputable def extend :
    (short a b).Point →+ (short (algebraMap F L a) (algebraMap F L b)).Point :=
  (exists_extend a b L).choose

theorem extend_some {x y : F} (on : (short a b).Nonsingular x y) :
    ∃ on', extend a b L (.some x y on) = .some (algebraMap F L x) (algebraMap F L y) on' :=
  (exists_extend a b L).choose_spec on

variable {a b}

theorem extend_ne_zero {A : (short a b).Point} (finite : A ≠ 0) : extend a b L A ≠ 0 := by
  cases A with
  | zero => exact absurd rfl finite
  | some x y on =>
    obtain ⟨on', value⟩ := extend_some a b L on
    rw [value]
    exact Point.some_ne_zero on'

theorem abscissa_extend (A : (short a b).Point) :
    abscissa (extend a b L A) = algebraMap F L (abscissa A) := by
  cases A with
  | zero => exact (congrArg abscissa (map_zero (extend a b L))).trans (map_zero _).symm
  | some x y on =>
    obtain ⟨on', value⟩ := extend_some a b L on
    rw [value]
    rfl

end Extension

namespace TwistPoint

variable {F K₀ : Type*} [Field F] [Field K₀] [Algebra F K₀] {a b : F} {d : K₀}

/-- The abscissa of the sum of a point of the curve and an untwisted point. -/
def sumAbscissa (Q : TwistPoint a b d) : (short a b).Point → QuadraticAlgebra K₀ d 0
  | .zero => algebraMap K₀ _ Q.x
  | .some x y _ =>
      (⟨-algebraMap F K₀ y, Q.y⟩ * algebraMap K₀ _ (Q.x - algebraMap F K₀ x)⁻¹) ^ 2 -
        algebraMap F _ x - algebraMap K₀ _ Q.x

@[simp] theorem sumAbscissa_zero (Q : TwistPoint a b d) :
    Q.sumAbscissa 0 = algebraMap K₀ _ Q.x := rfl

/-- The distance of a point to the sum, with the inverse of the distance of the abscissas. -/
theorem sub_sumAbscissa_of_inverse (Q : TwistPoint a b d) {x y : F}
    (on : (short a b).Nonsingular x y) {A : K₀} (inverse : A * (algebraMap F K₀ x - Q.x) = 1) :
    algebraMap F (QuadraticAlgebra K₀ d 0) x - Q.sumAbscissa (.some x y on) =
      algebraMap F _ (x + x) + algebraMap K₀ _ Q.x -
        (⟨-algebraMap F K₀ y, Q.y⟩ * algebraMap K₀ _ A) ^ 2 := by
  have opposite : (Q.x - algebraMap F K₀ x)⁻¹ = -A := by
    apply inv_eq_of_mul_eq_one_left
    linear_combination inverse
  rw [sumAbscissa, opposite, map_neg, map_add]
  ring

variable [nonsquare : Fact (∀ r : K₀, r ^ 2 ≠ d + 0 * r)] (Q : TwistPoint a b d)

section Group

variable [DecidableEq F] [DecidableEq K₀] (two : (2 : K₀) ≠ 0)

omit [DecidableEq F] [DecidableEq K₀] in
include two in
theorem nonsingular : (short (algebraMap F (QuadraticAlgebra K₀ d 0) a)
    (algebraMap F (QuadraticAlgebra K₀ d 0) b)).Nonsingular (algebraMap K₀ _ Q.x) ⟨0, Q.y⟩ := by
  apply short_nonsingular
  · intro zero
    exact two (congrArg QuadraticAlgebra.re zero)
  · have on := Q.on
    ext
    · simp [pow_succ] at on ⊢
      linear_combination on
    · simp [pow_succ]
  · intro zero
    exact Q.nonzero (congrArg QuadraticAlgebra.im zero)

/-- The untwisted point. -/
def point : (short (algebraMap F (QuadraticAlgebra K₀ d 0) a)
    (algebraMap F (QuadraticAlgebra K₀ d 0) b)).Point :=
  .some _ _ (Q.nonsingular two)

omit [DecidableEq F] [DecidableEq K₀] in
/-- Its abscissa belongs to no point over the small field. -/
theorem algebraMap_x_ne {x y : F} (on : (short a b).Nonsingular x y) :
    algebraMap F (QuadraticAlgebra K₀ d 0) x ≠ algebraMap K₀ _ Q.x := by
  intro same
  apply Q.x_ne on
  have coordinate : algebraMap F K₀ x = Q.x := congrArg QuadraticAlgebra.re same
  rw [coordinate, sub_self]

/-- It is no point over the small field. -/
theorem extend_add_point_ne_zero (A : (short a b).Point) :
    extend a b (QuadraticAlgebra K₀ d 0) A + Q.point two ≠ 0 := by
  intro zero
  have opposite : extend a b (QuadraticAlgebra K₀ d 0) (-A) = Q.point two := by
    rw [map_neg]
    exact neg_eq_of_add_eq_zero_right zero
  cases negated : -A with
  | zero =>
    rw [negated] at opposite
    exact Point.some_ne_zero (Q.nonsingular two) (opposite.symm.trans (map_zero _))
  | some x y on =>
    rw [negated] at opposite
    have same := congrArg abscissa opposite
    rw [abscissa_extend, abscissa_some] at same
    exact Q.algebraMap_x_ne on same

/-- The abscissa of the sum. -/
theorem abscissa_extend_add_point (A : (short a b).Point) :
    abscissa (extend a b (QuadraticAlgebra K₀ d 0) A + Q.point two) = Q.sumAbscissa A := by
  cases A with
  | zero =>
    rw [show (Point.zero : (short a b).Point) = 0 from rfl, map_zero, zero_add]
    rfl
  | some x y on =>
    obtain ⟨on', value⟩ := extend_some a b (QuadraticAlgebra K₀ d 0) on
    have distinct := Q.algebraMap_x_ne on
    have ordinate : algebraMap F (QuadraticAlgebra K₀ d 0) y - ⟨0, Q.y⟩ =
        -⟨-algebraMap F K₀ y, Q.y⟩ := by
      ext
      · simp
      · simp
    have distance : algebraMap F (QuadraticAlgebra K₀ d 0) x - algebraMap K₀ _ Q.x =
        -algebraMap K₀ _ (Q.x - algebraMap F K₀ x) := by
      rw [map_sub, neg_sub]
      rfl
    rw [value, point, abscissa_add on' (Q.nonsingular two) distinct, ordinate, distance,
      neg_div_neg_eq, div_eq_mul_inv, ← map_inv₀]
    rfl

/-- Multiples of the first point on both sides of the sum. -/
private theorem extend_add_point_add (A S : (short a b).Point) :
    extend a b (QuadraticAlgebra K₀ d 0) A + Q.point two + extend a b _ S =
        extend a b _ (A + S) + Q.point two ∧
      extend a b (QuadraticAlgebra K₀ d 0) A + Q.point two - extend a b _ S =
        extend a b _ (A - S) + Q.point two := by
  rw [map_add, map_sub]
  constructor
  · abel
  · abel

include two

/-- The relation of the abscissas with the sum as its third point. -/
theorem sumAbscissa_relation {P S : (short a b).Point} (A : (short a b).Point) (first : P ≠ 0)
    (second : S ≠ 0) (above : S + P ≠ 0) (below : S - P ≠ 0) :
    algebraMap F (QuadraticAlgebra K₀ d 0) (abscissa P - abscissa S) ^ 2 *
          (algebraMap F _ (abscissa (S - P)) - Q.sumAbscissa A) *
        (algebraMap F _ (abscissa (S + P)) - Q.sumAbscissa A) =
      (algebraMap F _ (abscissa S) - Q.sumAbscissa A) ^ 2 *
          (algebraMap F _ (abscissa P) - Q.sumAbscissa (A + S)) *
        (algebraMap F _ (abscissa P) - Q.sumAbscissa (A - S)) := by
  obtain ⟨sum, difference⟩ := Q.extend_add_point_add two A S
  have relation := abscissa_relation (R := extend a b _ A + Q.point two)
    (extend_ne_zero (QuadraticAlgebra K₀ d 0) first)
    (extend_ne_zero (QuadraticAlgebra K₀ d 0) second) (Q.extend_add_point_ne_zero two A)
    (by rw [← map_add]; exact extend_ne_zero _ above)
    (by rw [← map_sub]; exact extend_ne_zero _ below)
    (sum ▸ Q.extend_add_point_ne_zero two (A + S))
    (difference ▸ Q.extend_add_point_ne_zero two (A - S))
  rw [sum, difference, ← map_add, ← map_sub] at relation
  simp only [abscissa_extend, abscissa_extend_add_point] at relation
  rw [map_sub]
  exact relation

/-- The relation at a doubled point. -/
theorem sumAbscissa_relation_self {P : (short a b).Point} (A : (short a b).Point) (first : P ≠ 0)
    (double : P + P ≠ 0) :
    algebraMap F (QuadraticAlgebra K₀ d 0) (4 * (abscissa P ^ 3 + a * abscissa P + b)) *
        (algebraMap F _ (abscissa (P + P)) - Q.sumAbscissa A) =
      (algebraMap F _ (abscissa P) - Q.sumAbscissa A) ^ 2 *
          (algebraMap F _ (abscissa P) - Q.sumAbscissa (A + P)) *
        (algebraMap F _ (abscissa P) - Q.sumAbscissa (A - P)) := by
  obtain ⟨sum, difference⟩ := Q.extend_add_point_add two A P
  have left := addForm_self (extend_ne_zero (QuadraticAlgebra K₀ d 0) first)
    (by rw [← map_add]; exact extend_ne_zero _ double) (Q.sumAbscissa A)
  have right := addForm_eq (Q.extend_add_point_ne_zero two A)
    (extend_ne_zero (QuadraticAlgebra K₀ d 0) first)
    (sum ▸ Q.extend_add_point_ne_zero two (A + P))
    (difference ▸ Q.extend_add_point_ne_zero two (A - P))
    (algebraMap F (QuadraticAlgebra K₀ d 0) (abscissa P))
  rw [sum, difference, addForm_rotate] at right
  rw [← map_add] at left
  simp only [abscissa_extend, abscissa_extend_add_point] at left right
  have coefficient : algebraMap F (QuadraticAlgebra K₀ d 0)
      (4 * (abscissa P ^ 3 + a * abscissa P + b)) =
        4 * (algebraMap F (QuadraticAlgebra K₀ d 0) (abscissa P) ^ 3 +
          algebraMap F (QuadraticAlgebra K₀ d 0) a *
            algebraMap F (QuadraticAlgebra K₀ d 0) (abscissa P) +
          algebraMap F (QuadraticAlgebra K₀ d 0) b) := by
    simp only [map_mul, map_add, map_pow, map_ofNat]
  rw [coefficient]
  linear_combination left - right

end Group

section Classes

variable [DecidableEq F]

omit [DecidableEq F] in
/-- The distance of an abscissa to that of the sum, cleared of its denominator. -/
private theorem sub_sumAbscissa_mul {x y : F} (on : (short a b).Nonsingular x y) (t : F) :
    (algebraMap F (QuadraticAlgebra K₀ d 0) t - Q.sumAbscissa (.some x y on)) *
        algebraMap K₀ _ ((Q.x - algebraMap F K₀ x) ^ 2) =
      ⟨(algebraMap F K₀ t + algebraMap F K₀ x + Q.x) * (Q.x - algebraMap F K₀ x) ^ 2 -
          (algebraMap F K₀ y ^ 2 + d * Q.y ^ 2), 2 * algebraMap F K₀ y * Q.y⟩ := by
  have cancel : algebraMap K₀ (QuadraticAlgebra K₀ d 0) (Q.x - algebraMap F K₀ x)⁻¹ *
      algebraMap K₀ _ (Q.x - algebraMap F K₀ x) = 1 := by
    rw [← map_mul, inv_mul_cancel₀ (Q.x_ne on), map_one]
  have cleared : (algebraMap F (QuadraticAlgebra K₀ d 0) t - Q.sumAbscissa (.some x y on)) *
        algebraMap K₀ _ ((Q.x - algebraMap F K₀ x) ^ 2) =
      (algebraMap F _ t + algebraMap F _ x + algebraMap K₀ _ Q.x) *
        algebraMap K₀ _ ((Q.x - algebraMap F K₀ x) ^ 2) - ⟨-algebraMap F K₀ y, Q.y⟩ ^ 2 := by
    rw [sumAbscissa, map_pow]
    linear_combination -(⟨-algebraMap F K₀ y, Q.y⟩ ^ 2) *
      (algebraMap K₀ (QuadraticAlgebra K₀ d 0) (Q.x - algebraMap F K₀ x)⁻¹ *
        algebraMap K₀ _ (Q.x - algebraMap F K₀ x) + 1) * cancel
  rw [cleared]
  ext
  · simp [pow_succ]
    ring
  · simp [pow_succ]
    ring

/-- A distance that is a product of two lines up to a scalar has the class of both. -/
private theorem meets_of_product {A B C D : (short a b).Point} {e l m : QuadraticAlgebra K₀ d 0}
    {c : K₀} (nonzero : c ≠ 0) (first : Q.MeetsLine A B l) (second : Q.MeetsLine C D m)
    (product : e * algebraMap K₀ _ c = l * m) :
    e ≠ 0 ∧ ScalarClass.of K₀ e = Q.cocycle.value A B * Q.cocycle.value C D := by
  have whole : e * algebraMap K₀ _ c ≠ 0 :=
    product ▸ mul_ne_zero first.nonzero second.nonzero
  refine ⟨left_ne_zero_of_mul whole, ?_⟩
  rw [← ScalarClass.of_scalar_mul nonzero e, mul_comm, product,
    ScalarClass.of_mul first.nonzero second.nonzero, first.value, second.value]

/-- The distance for two points with distinct abscissas. -/
private theorem sub_sumAbscissa_chord {x₁ y₁ x₂ y₂ : F} (on₁ : (short a b).Nonsingular x₁ y₁)
    (on₂ : (short a b).Nonsingular x₂ y₂) (distinct : x₁ ≠ x₂) :
    algebraMap F (QuadraticAlgebra K₀ d 0) x₂ - Q.sumAbscissa (.some x₁ y₁ on₁) ≠ 0 ∧
      ScalarClass.of K₀ (algebraMap F (QuadraticAlgebra K₀ d 0) x₂ -
          Q.sumAbscissa (.some x₁ y₁ on₁)) =
        Q.cocycle.value (.some x₁ y₁ on₁) (.some x₂ y₂ on₂) *
          Q.cocycle.value (.some x₁ y₁ on₁) (-.some x₂ y₂ on₂) := by
  have opposite := short_nonsingular_neg on₂
  have negated := short_neg_some on₂
  have first := Q.meetsLine_chord on₁ on₂ distinct one_ne_zero rfl rfl rfl
  have second := Q.meetsLine_chord on₁ opposite distinct one_ne_zero rfl rfl rfl
  have apart : algebraMap F K₀ (x₂ - x₁) ≠ 0 :=
    (map_ne_zero _).mpr (sub_ne_zero.mpr distinct.symm)
  have scale := mul_ne_zero (pow_ne_zero 2 (Q.x_ne on₁)) (mul_ne_zero (Q.x_ne on₂) apart)
  rw [negated]
  refine Q.meets_of_product scale first second ?_
  have curve₁ := congrArg (algebraMap F K₀) (short_nonsingular_eq on₁)
  have curve₂ := congrArg (algebraMap F K₀) (short_nonsingular_eq on₂)
  have twist := Q.on
  simp only [map_add, map_mul, map_pow] at curve₁ curve₂
  rw [map_mul, ← mul_assoc, Q.sub_sumAbscissa_mul on₁ x₂]
  ext
  · simp [lineAt]
    linear_combination -(Q.x - algebraMap F K₀ x₂) * (Q.x - algebraMap F K₀ x₁) * curve₁ -
      (algebraMap F K₀ x₂ - algebraMap F K₀ x₁) * (Q.x - algebraMap F K₀ x₁) * twist +
      (Q.x - algebraMap F K₀ x₁) ^ 2 * curve₂
  · simp [lineAt]
    ring

/-- The distance for a point off the axis and itself. -/
private theorem sub_sumAbscissa_tangent (two : (2 : F) ≠ 0) {x y : F}
    (on : (short a b).Nonsingular x y) (axis : y ≠ 0) :
    algebraMap F (QuadraticAlgebra K₀ d 0) x - Q.sumAbscissa (.some x y on) ≠ 0 ∧
      ScalarClass.of K₀ (algebraMap F (QuadraticAlgebra K₀ d 0) x -
          Q.sumAbscissa (.some x y on)) =
        Q.cocycle.value (.some x y on) (.some x y on) *
          Q.cocycle.value (.some x y on) (-.some x y on) := by
  have tangent := Q.meetsLine_tangent two on axis one_ne_zero rfl rfl rfl
  have vertical : Q.MeetsLine (.some x y on) (-.some x y on) 1 :=
    ⟨one_ne_zero, ScalarClass.of_one.trans (Q.cocycle_neg _).symm⟩
  refine Q.meets_of_product (pow_ne_zero 2 (Q.x_ne on)) tangent vertical ?_
  have curve := congrArg (algebraMap F K₀) (short_nonsingular_eq on)
  have twist := Q.on
  simp only [map_add, map_mul, map_pow] at curve
  rw [Q.sub_sumAbscissa_mul on x]
  ext
  · simp [lineAt, map_ofNat]
    linear_combination curve - twist
  · simp [lineAt, map_ofNat]

/-- The distance of the abscissa of `B` to that of the sum with `A` has the class of the
lines from `A` through `B` and through its opposite. -/
theorem sub_sumAbscissa_class (two : (2 : F) ≠ 0) {A B : (short a b).Point} (left : A ≠ 0)
    (right : B ≠ 0) (axis : A + A ≠ 0) :
    algebraMap F (QuadraticAlgebra K₀ d 0) (abscissa B) - Q.sumAbscissa A ≠ 0 ∧
      ScalarClass.of K₀ (algebraMap F (QuadraticAlgebra K₀ d 0) (abscissa B) - Q.sumAbscissa A) =
        Q.cocycle.value A B * Q.cocycle.value A (-B) := by
  cases A with
  | zero => exact absurd rfl left
  | some x y on =>
    have ordinate : y ≠ 0 := by
      rintro rfl
      exact axis (Point.add_of_Y_eq rfl (by rw [short_negY, neg_zero]))
    cases B with
    | zero => exact absurd rfl right
    | some x₁ y₁ on₁ =>
      by_cases same : x = x₁
      · subst same
        have tangent := Q.sub_sumAbscissa_tangent two on ordinate
        have either : Point.some _ _ on = .some _ _ on₁ ∨ _ := eq_or_add_eq_zero_of_x_eq
        rcases either with equal | opposite
        · rw [← equal]
          exact tangent
        · rw [← neg_eq_of_add_eq_zero_right opposite, neg_neg, mul_comm, abscissa_neg]
          exact tangent
      · exact Q.sub_sumAbscissa_chord on on₁ same

/-- A term, the distance to it and a correction reach a further multiple. -/
theorem Accumulates.reach {Q : TwistPoint a b d} (two : (2 : F) ≠ 0) {P : (short a b).Point}
    {k i : ℕ} {v e : QuadraticAlgebra K₀ d 0} (before : Q.Accumulates P k v)
    (correction : Q.Accumulates P i e) (left : k • P ≠ 0) (right : (k + i) • P ≠ 0)
    (axis : k • P + k • P ≠ 0) {c : K₀} (nonzero : c ≠ 0) :
    Q.Accumulates P (2 * k + i) (algebraMap K₀ _ c *
      (v ^ 2 * (algebraMap F _ (abscissa ((k + i) • P)) - Q.sumAbscissa (k • P)) * e)) := by
  obtain ⟨apart, value⟩ := Q.sub_sumAbscissa_class two left right axis
  have square := pow_ne_zero 2 before.nonzero
  refine Accumulates.scalar_mul ⟨mul_ne_zero (mul_ne_zero square apart) correction.nonzero, ?_⟩
    nonzero
  rw [ScalarClass.of_mul (mul_ne_zero square apart) correction.nonzero,
    ScalarClass.of_mul square apart, sq, ScalarClass.of_mul before.nonzero before.nonzero,
    before.value, correction.value, value, ← sq, Q.cocycle.value_mul_value_neg Q.cocycle_neg]

/-- The terms `k - 1`, `k` and `k + 1` of the net. -/
structure NetAt (Q : TwistPoint a b d) (P : (short a b).Point) (k : ℕ)
    (dm1 d0 d1 : QuadraticAlgebra K₀ d 0) : Prop where
  current : Q.Accumulates P k d0
  next : Q.Accumulates P (k + 1) d1
  product : dm1 * d1 = d0 ^ 2 * (algebraMap F _ (abscissa P) - Q.sumAbscissa (k • P))

variable {Q}

/-- The correction that divides by the term of `2 P - Q`. -/
theorem accumulates_correction (two : (2 : F) ≠ 0) {P : (short a b).Point} (finite : P ≠ 0)
    (axis : P + P ≠ 0) {A : K₀} (nonzero : A ≠ 0) {B : QuadraticAlgebra K₀ d 0}
    (value : B * (algebraMap F _ (abscissa P) - Q.sumAbscissa (-P)) = algebraMap K₀ _ A ^ 2) :
    Q.Accumulates P 2 B := by
  have opposite : -P + -P ≠ 0 := by
    rw [← neg_add]
    exact neg_ne_zero.mpr axis
  obtain ⟨apart, distance⟩ :=
    Q.sub_sumAbscissa_class two (neg_ne_zero.mpr finite) finite opposite
  have whole : B * (algebraMap F _ (abscissa P) - Q.sumAbscissa (-P)) ≠ 0 := by
    rw [value]
    exact pow_ne_zero 2 ((map_ne_zero _).mpr nonzero)
  refine ⟨left_ne_zero_of_mul whole, ?_⟩
  have classes := congrArg (ScalarClass.of K₀) value
  rw [ScalarClass.of_mul (left_ne_zero_of_mul whole) apart, distance, ← map_pow,
    ScalarClass.of_algebraMap, Q.cocycle.comm (-P), Q.cocycle_neg, one_mul] at classes
  have inverse := Q.cocycle.value_neg_neg Q.cocycle_neg P P
  rw [Cocycle.power_succ, Cocycle.power_one, one_mul, one_nsmul]
  exact mul_right_cancel (b := Q.cocycle.value (-P) (-P))
    (classes.trans (by rw [mul_comm, inverse]))

namespace NetAt

variable {x y : F} {on : (short a b).Nonsingular x y} {N k : ℕ}
  {dm1 d0 d1 : QuadraticAlgebra K₀ d 0}

/-- The net at the point itself. -/
theorem one (two : (2 : F) ≠ 0) {P : (short a b).Point} (finite : P ≠ 0) (axis : P + P ≠ 0) :
    Q.NetAt P 1 1 1 (algebraMap F _ (abscissa P) - Q.sumAbscissa P) where
  current := Accumulates.one
  next := by
    obtain ⟨apart, distance⟩ := Q.sub_sumAbscissa_class two finite finite axis
    refine ⟨apart, ?_⟩
    rw [distance, Q.cocycle_neg, mul_one, Cocycle.power_succ, Cocycle.power_one, one_mul, one_nsmul]
  product := by rw [one_mul, one_pow, one_mul, one_nsmul]

variable (finite : ∀ j, 0 < j → j ≤ N → j • (.some x y on : (short a b).Point) ≠ 0)
  (nonzero : 2 * y ≠ 0)

include finite nonzero in
/-- The combination of the terms that a step forms, with the index of the first point. -/
theorem term (net : Q.NetAt (.some x y on) k dm1 d0 d1) {i : ℕ} (bounded : i + 2 ≤ N) :
    dm1 * d1 * algebraMap F _ (divisionValue a b x y (i + 1 : ℕ) ^ 2) -
        d0 ^ 2 * algebraMap F _ (divisionValue a b x y i * divisionValue a b x y (i + 2 : ℕ)) =
      algebraMap F _ (divisionValue a b x y (i + 1 : ℕ) ^ 2) *
        (d0 ^ 2 * (algebraMap F _ (abscissa ((i + 1) • .some x y on : (short a b).Point)) -
          Q.sumAbscissa (k • .some x y on))) := by
  have neighbours := divisionValue_neighbours finite nonzero bounded
  rw [net.product, mul_comm (divisionValue a b x y i), neighbours, abscissa_some, map_mul, map_sub]
  ring

/-- A combination reaches the sum of its index and that of the net. -/
private theorem reach (net : Q.NetAt (.some x y on) k dm1 d0 d1)
    (finite : ∀ j, 0 < j → j ≤ N → j • (.some x y on : (short a b).Point) ≠ 0)
    (nonzero : 2 * y ≠ 0) (positive : 0 < k) (double : 2 * k ≤ N) {i : ℕ} (bounded : k + i + 1 ≤ N)
    {e : QuadraticAlgebra K₀ d 0} (correction : Q.Accumulates (.some x y on) i e) :
    Q.Accumulates (.some x y on) (2 * k + i)
      (algebraMap F _ (divisionValue a b x y (k + i : ℕ) ^ 2) *
        (d0 ^ 2 * (algebraMap F _ (abscissa ((k + i) • .some x y on : (short a b).Point)) -
          Q.sumAbscissa (k • .some x y on))) * e) := by
  have scalar : algebraMap F K₀ (divisionValue a b x y (k + i : ℕ) ^ 2) ≠ 0 :=
    (map_ne_zero _).mpr (pow_ne_zero 2
      (divisionValue_ne_zero finite nonzero (by omega) (by omega)))
  have reached := net.current.reach (left_ne_zero_of_mul nonzero) correction
    (finite k positive (by omega)) (finite (k + i) (by omega) (by omega))
    (by rw [← two_nsmul, ← mul_nsmul']; exact finite (2 * k) (by omega) double) scalar
  rw [mul_assoc]
  exact reached

omit nonsquare [DecidableEq F] in
private theorem two_extension {y : F} (nonzero : 2 * y ≠ 0) : (2 : K₀) ≠ 0 := by
  have two := (map_ne_zero (algebraMap F K₀)).mpr (left_ne_zero_of_mul nonzero)
  rwa [map_ofNat] at two

private theorem accumulates_scalar {P : (short a b).Point} {A c : K₀} (inverse : A * c = 1) :
    Q.Accumulates P 1 (algebraMap K₀ _ A) := by
  have one := (Accumulates.one (Q := Q) (P := P)).scalar_mul (left_ne_zero_of_mul_eq_one inverse)
  rwa [mul_one] at one

omit nonsquare [DecidableEq F] in
private theorem map_inverse {x : F} {A : K₀} (inverse : A * (algebraMap F K₀ x - Q.x) = 1) :
    algebraMap K₀ (QuadraticAlgebra K₀ d 0) A *
      (algebraMap F _ x - algebraMap K₀ _ Q.x) = 1 := by
  have image := congrArg (algebraMap K₀ (QuadraticAlgebra K₀ d 0)) inverse
  rw [map_mul, map_sub, map_one] at image
  exact image

/-- The product of the outer terms after a step, from the neighbours of the middle one. -/
private theorem step_product {R : Type*} [CommRing R] {u w v X D E G t c e Y Z : R}
    (neighbours : v * u = w ^ 2 * X) (relation : X ^ 2 * D * G = E ^ 2 * Z * Y)
    (correction : e * Y = c ^ 2) :
    u ^ 2 * (t ^ 2 * D) * (v ^ 2 * (t ^ 2 * G) * e) = (w ^ 2 * (t ^ 2 * E) * c) ^ 2 * Z := by
  linear_combination t ^ 4 * D * G * e * (v * u + w ^ 2 * X) * neighbours +
    w ^ 4 * t ^ 4 * e * relation + w ^ 4 * t ^ 4 * E ^ 2 * Z * correction

variable {i : ℕ} {A : K₀} (inverse : A * (algebraMap F K₀ x - Q.x) = 1)

include finite nonzero inverse

/-- Doubling a multiple other than the point itself. -/
private theorem double_succ (net : Q.NetAt (.some x y on) (i + 2) dm1 d0 d1) (bounded : i + 4 ≤ N)
    (whole : 2 * (i + 2) ≤ N) :
    Q.NetAt (.some x y on) (2 * (i + 2))
      (dm1 * d1 * algebraMap F _ (divisionValue a b x y (i + 1 : ℕ) ^ 2) -
        d0 ^ 2 * algebraMap F _ (divisionValue a b x y i * divisionValue a b x y (i + 2 : ℕ)))
      (dm1 * d1 * algebraMap F _ (divisionValue a b x y (i + 2 : ℕ) ^ 2) -
        d0 ^ 2 * algebraMap F _
          (divisionValue a b x y (i + 1 : ℕ) * divisionValue a b x y (i + 3 : ℕ)))
      ((dm1 * d1 * algebraMap F _ (divisionValue a b x y (i + 3 : ℕ) ^ 2) -
        d0 ^ 2 * algebraMap F _
          (divisionValue a b x y (i + 2 : ℕ) * divisionValue a b x y (i + 4 : ℕ))) *
        algebraMap K₀ _ A) := by
  have lower := net.term finite nonzero (i := i) (by omega)
  have current := net.term finite nonzero (i := i + 1) (by omega)
  have upper := net.term finite nonzero (i := i + 2) (by omega)
  rw [lower, current, upper]
  refine ⟨?_, ?_, ?_⟩
  · have reached := net.reach finite nonzero (by omega) whole (i := 0) (by omega) Accumulates.zero
    rwa [mul_one] at reached
  · exact net.reach finite nonzero (by omega) whole (by omega) (accumulates_scalar inverse)
  · have above : (i + 2) • .some x y on + .some x y on = (i + 3) • (.some x y on : (short a b).Point) :=
      (succ_nsmul _ (i + 2)).symm
    have below : (i + 2) • .some x y on - .some x y on = (i + 1) • (.some x y on : (short a b).Point) :=
      sub_eq_of_eq_add (succ_nsmul _ (i + 1))
    classical
    have relation := Q.sumAbscissa_relation (two_extension nonzero) ((i + 2) • .some x y on)
      (Point.some_ne_zero on) (finite (i + 2) (by omega) (by omega))
      (above ▸ finite (i + 3) (by omega) (by omega)) (below ▸ finite (i + 1) (by omega) (by omega))
    have twice : (i + 2) • .some x y on + (i + 2) • .some x y on =
        (2 * (i + 2)) • (.some x y on : (short a b).Point) := by
      rw [two_mul]
      exact (add_nsmul _ _ _).symm
    have neighbours := congrArg (algebraMap F (QuadraticAlgebra K₀ d 0))
      (divisionValue_neighbours finite nonzero (n := i + 1) (by omega))
    rw [above, below, twice, sub_self, sumAbscissa_zero] at relation
    rw [map_mul, map_mul, map_pow] at neighbours
    simp only [map_pow, abscissa_some] at relation ⊢
    have product := step_product (t := d0) (c := 1) neighbours relation
      (by rw [one_pow]; exact map_inverse inverse)
    rwa [mul_one] at product

/-- Doubling the point itself. -/
private theorem double_one (net : Q.NetAt (.some x y on) 1 dm1 d0 d1) (bounded : 3 ≤ N) :
    Q.NetAt (.some x y on) 2
      (dm1 * d1 * algebraMap F _ (divisionValue a b x y 0 ^ 2) -
        d0 ^ 2 * algebraMap F _ (divisionValue a b x y (-1) * divisionValue a b x y 1))
      (dm1 * d1 * algebraMap F _ (divisionValue a b x y 1 ^ 2) -
        d0 ^ 2 * algebraMap F _ (divisionValue a b x y 0 * divisionValue a b x y 2))
      ((dm1 * d1 * algebraMap F _ (divisionValue a b x y 2 ^ 2) -
        d0 ^ 2 * algebraMap F _ (divisionValue a b x y 1 * divisionValue a b x y 3)) *
        algebraMap K₀ _ A) := by
  have current := net.term finite nonzero (i := 0) (by omega)
  have upper := net.term finite nonzero (i := 1) (by omega)
  simp only [zero_add, one_add_one_eq_two, Nat.cast_zero, Nat.cast_one, Nat.cast_ofNat, one_nsmul,
    Nat.reduceAdd, abscissa_some] at current upper
  have lower : dm1 * d1 * algebraMap F (QuadraticAlgebra K₀ d 0) (divisionValue a b x y 0 ^ 2) -
      d0 ^ 2 * algebraMap F _ (divisionValue a b x y (-1) * divisionValue a b x y 1) = d0 ^ 2 := by
    simp only [divisionValue, normEDS_zero, normEDS_neg, normEDS_one]
    simp
  rw [lower, current, upper]
  refine ⟨?_, ?_, ?_⟩
  · have reached := net.reach finite nonzero one_pos (by omega) (i := 0) (by omega) Accumulates.zero
    simp only [mul_one, add_zero, Nat.cast_one, one_nsmul, abscissa_some] at reached
    exact reached
  · have reached := net.reach finite nonzero one_pos (by omega) (by omega)
      (accumulates_scalar inverse)
    simp only [mul_one, one_add_one_eq_two, Nat.cast_ofNat, one_nsmul] at reached
    exact reached
  · classical
    have double : (.some x y on + .some x y on : (short a b).Point) ≠ 0 := by
      have := finite 2 two_pos (by omega)
      rwa [two_nsmul] at this
    have relation := Q.sumAbscissa_relation_self (two_extension nonzero) (.some x y on)
      (Point.some_ne_zero on) double
    have one : divisionValue a b x y 1 = 1 := normEDS_one ..
    have two : divisionValue a b x y 2 = 2 * y := normEDS_two ..
    rw [sub_self, sumAbscissa_zero, abscissa_some, ← short_nonsingular_eq on, ← two_nsmul,
      show 4 * y ^ 2 = (2 * y) ^ 2 by ring] at relation
    rw [one, two, one_pow, map_one, abscissa_some]
    linear_combination d0 ^ 4 * algebraMap K₀ _ A * relation + d0 ^ 4 *
      (algebraMap F _ x - Q.sumAbscissa (.some x y on)) ^ 2 *
      (algebraMap F _ x - Q.sumAbscissa (2 • .some x y on)) * map_inverse inverse

/-- The branch "double" of the terms that involve the second point. -/
theorem double (net : Q.NetAt (.some x y on) k dm1 d0 d1) (positive : 0 < k)
    (bounded : k + 2 ≤ N) (whole : 2 * k ≤ N) :
    Q.NetAt (.some x y on) (2 * k)
      (dm1 * d1 * algebraMap F _ (divisionValue a b x y (k - 1) ^ 2) -
        d0 ^ 2 * algebraMap F _ (divisionValue a b x y (k - 2) * divisionValue a b x y k))
      (dm1 * d1 * algebraMap F _ (divisionValue a b x y k ^ 2) -
        d0 ^ 2 * algebraMap F _ (divisionValue a b x y (k - 1) * divisionValue a b x y (k + 1)))
      ((dm1 * d1 * algebraMap F _ (divisionValue a b x y (k + 1) ^ 2) -
        d0 ^ 2 * algebraMap F _ (divisionValue a b x y k * divisionValue a b x y (k + 2))) *
        algebraMap K₀ _ A) := by
  match k, positive with
  | 1, _ => exact net.double_one finite nonzero inverse (by omega)
  | i + 2, _ =>
    have step := net.double_succ finite nonzero inverse (by omega) whole
    rw [show ((i + 2 : ℕ) : ℤ) - 1 = (i + 1 : ℕ) by omega,
      show ((i + 2 : ℕ) : ℤ) - 2 = (i : ℕ) by omega,
      show ((i + 2 : ℕ) : ℤ) + 1 = (i + 3 : ℕ) by omega,
      show ((i + 2 : ℕ) : ℤ) + 2 = (i + 4 : ℕ) by omega]
    exact step

/-- The branch "double-and-add". -/
theorem doubleAdd (net : Q.NetAt (.some x y on) k dm1 d0 d1) (positive : 0 < k)
    (bounded : k + 3 ≤ N) (whole : 2 * k ≤ N) {B : QuadraticAlgebra K₀ d 0}
    (value : B * (algebraMap F _ x - Q.sumAbscissa (-.some x y on)) = algebraMap K₀ _ A ^ 2) :
    Q.NetAt (.some x y on) (2 * k + 1)
      (dm1 * d1 * algebraMap F _ (divisionValue a b x y k ^ 2) -
        d0 ^ 2 * algebraMap F _ (divisionValue a b x y (k - 1) * divisionValue a b x y (k + 1)))
      ((dm1 * d1 * algebraMap F _ (divisionValue a b x y (k + 1) ^ 2) -
        d0 ^ 2 * algebraMap F _ (divisionValue a b x y k * divisionValue a b x y (k + 2))) *
        algebraMap K₀ _ A)
      ((dm1 * d1 * algebraMap F _ (divisionValue a b x y (k + 2) ^ 2) -
        d0 ^ 2 * algebraMap F _ (divisionValue a b x y (k + 1) * divisionValue a b x y (k + 3))) *
        B) := by
  obtain ⟨i, rfl⟩ : ∃ i, k = i + 1 := ⟨k - 1, by omega⟩
  rw [show ((i + 1 : ℕ) : ℤ) - 1 = (i : ℕ) by omega,
    show ((i + 1 : ℕ) : ℤ) + 1 = (i + 2 : ℕ) by omega,
    show ((i + 1 : ℕ) : ℤ) + 2 = (i + 3 : ℕ) by omega,
    show ((i + 1 : ℕ) : ℤ) + 3 = (i + 4 : ℕ) by omega,
    net.term finite nonzero (i := i) (by omega), net.term finite nonzero (i := i + 1) (by omega),
    net.term finite nonzero (i := i + 2) (by omega)]
  have axis : (.some x y on + .some x y on : (short a b).Point) ≠ 0 := by
    have := finite 2 two_pos (by omega)
    rwa [two_nsmul] at this
  refine ⟨?_, ?_, ?_⟩
  · exact net.reach finite nonzero (by omega) whole (by omega) (accumulates_scalar inverse)
  · exact net.reach finite nonzero (by omega) whole (by omega)
      (accumulates_correction (left_ne_zero_of_mul nonzero) (Point.some_ne_zero on) axis
        (left_ne_zero_of_mul_eq_one inverse) value)
  · classical
    have above : (i + 2) • .some x y on + .some x y on = (i + 3) • (.some x y on : (short a b).Point) :=
      (succ_nsmul _ (i + 2)).symm
    have below : (i + 2) • .some x y on - .some x y on = (i + 1) • (.some x y on : (short a b).Point) :=
      sub_eq_of_eq_add (succ_nsmul _ (i + 1))
    have relation := Q.sumAbscissa_relation (two_extension nonzero) ((i + 1) • .some x y on)
      (Point.some_ne_zero on) (finite (i + 2) (by omega) (by omega))
      (above ▸ finite (i + 3) (by omega) (by omega)) (below ▸ finite (i + 1) (by omega) (by omega))
    have sum : (i + 1) • .some x y on + (i + 2) • .some x y on =
        (2 * (i + 1) + 1) • (.some x y on : (short a b).Point) := by
      rw [← add_nsmul]
      congr 1
      omega
    have difference : (i + 1) • .some x y on - (i + 2) • .some x y on =
        -(.some x y on : (short a b).Point) := by
      rw [succ_nsmul _ (i + 1)]
      abel
    have neighbours := congrArg (algebraMap F (QuadraticAlgebra K₀ d 0))
      (divisionValue_neighbours finite nonzero (n := i + 1) (by omega))
    rw [above, below, sum, difference] at relation
    rw [map_mul, map_mul, map_pow] at neighbours
    simp only [map_pow, abscissa_some] at relation ⊢
    exact step_product (t := d0) neighbours relation value

end NetAt

end Classes

end TwistPoint

end Pbc.Elliptic
