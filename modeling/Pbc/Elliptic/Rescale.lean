import Mathlib.Tactic.FieldSimp
import Pbc.Elliptic.Short

/-!
# Rescaled curves

A curve over a field becomes another one over a larger field when its coefficients are
scaled by the fourth and the sixth power of an element `u`; a point `(x, y)` becomes
`(x / u^2, y / u^3)`. The lines of the one curve are those of the other, so that the group
law is kept.
-/

open WeierstrassCurve.Affine

namespace Pbc.Elliptic

variable {K L : Type*} [Field K] [Field L]

/-- The coefficients over the first field are those over the second, scaled by `u`. -/
structure Rescales (embed : K →+* L) (A B : K) (a b u : L) : Prop where
  nonzero : u ≠ 0
  linear : embed A = a * u ^ 4
  constant : embed B = b * u ^ 6

namespace Rescales

variable {embed : K →+* L} {A B : K} {a b u : L} (scales : Rescales embed A B a b u)

include scales

theorem equation {x y : K} (on : (short A B).Equation x y) :
    (short a b).Equation (embed x / u ^ 2) (embed y / u ^ 3) := by
  have nonzero := scales.nonzero
  have curve := congrArg embed (short_equation_iff.mp on)
  simp only [map_add, map_mul, map_pow, scales.linear, scales.constant] at curve
  rw [short_equation_iff]
  field_simp
  linear_combination curve

theorem nonsingular {x y : K} (on : (short A B).Nonsingular x y) :
    (short a b).Nonsingular (embed x / u ^ 2) (embed y / u ^ 3) := by
  have nonzero := scales.nonzero
  obtain ⟨equation, smooth⟩ := (nonsingular_iff _ _).mp on
  refine (nonsingular_iff _ _).mpr ⟨scales.equation equation, ?_⟩
  simp only [short_a₁, short_a₂, short_a₃, short_a₄, zero_mul, mul_zero, add_zero, sub_zero] at smooth ⊢
  refine smooth.imp (fun slope flat => slope ?_) (fun axis equal => axis ?_)
  · apply embed.injective
    field_simp at flat
    simp only [map_zero, map_add, map_mul, map_pow, map_ofNat, scales.linear]
    linear_combination flat
  · apply embed.injective
    field_simp at equal
    rw [map_neg]
    exact equal

theorem injective_div {x y : K} {n : ℕ} (equal : embed x / u ^ n = embed y / u ^ n) : x = y :=
  embed.injective ((div_left_inj' (pow_ne_zero n scales.nonzero)).mp equal)

variable [DecidableEq K] [DecidableEq L]

/-- The slope of a line. -/
theorem slope {x₁ y₁ x₂ y₂ : K} (on₁ : (short A B).Nonsingular x₁ y₁)
    (on₂ : (short A B).Nonsingular x₂ y₂) (apart : ¬(x₁ = x₂ ∧ y₁ = (short A B).negY x₂ y₂)) :
    (short a b).slope (embed x₁ / u ^ 2) (embed x₂ / u ^ 2) (embed y₁ / u ^ 3) (embed y₂ / u ^ 3) =
      embed ((short A B).slope x₁ x₂ y₁ y₂) / u := by
  have nonzero := scales.nonzero
  by_cases vertical : x₁ = x₂
  · subst vertical
    have same : y₁ = y₂ := Y_eq_of_Y_ne on₁.left on₂.left rfl fun opposite => apart ⟨rfl, opposite⟩
    subst same
    have axis : y₁ ≠ -y₁ := fun equal => apart ⟨rfl, equal.trans (short_negY x₁ y₁).symm⟩
    have axis' : embed y₁ / u ^ 3 ≠ -(embed y₁ / u ^ 3) := by
      intro equal
      rw [← neg_div, ← map_neg] at equal
      exact axis (scales.injective_div equal)
    rw [short_slope_self axis, short_slope_self axis']
    simp only [map_div₀, map_add, map_mul, map_pow, map_ofNat, scales.linear]
    have double : 2 * embed y₁ ≠ 0 := by
      intro zero
      apply axis
      apply embed.injective
      rw [map_neg]
      linear_combination zero
    have ordinate := right_ne_zero_of_mul double
    have two := left_ne_zero_of_mul double
    field_simp
  · have vertical' : embed x₁ / u ^ 2 ≠ embed x₂ / u ^ 2 := fun equal =>
      vertical (scales.injective_div equal)
    rw [short_slope_of_ne _ _ vertical, short_slope_of_ne _ _ vertical', map_div₀, map_sub, map_sub,
      ← sub_div, ← sub_div]
    have differ : embed x₁ - embed x₂ ≠ 0 := by
      rw [← map_sub, map_ne_zero]
      exact sub_ne_zero.mpr vertical
    field_simp

end Rescales

variable [DecidableEq K] [DecidableEq L]

/-- Points of the one curve as points of the other. -/
noncomputable def rescale {embed : K →+* L} {A B : K} {a b u : L}
    (scales : Rescales embed A B a b u) : (short A B).Point →+ (short a b).Point where
  toFun
    | .zero => 0
    | .some x y on => .some (embed x / u ^ 2) (embed y / u ^ 3) (scales.nonsingular on)
  map_zero' := rfl
  map_add' := by
    rintro (_ | ⟨x₁, y₁, on₁⟩) (_ | ⟨x₂, y₂, on₂⟩)
    any_goals rfl
    by_cases opposite : x₁ = x₂ ∧ y₁ = (short A B).negY x₂ y₂
    · obtain ⟨rfl, rfl⟩ := opposite
      rw [Point.add_of_Y_eq rfl rfl, Point.add_of_Y_eq rfl (by
        rw [short_negY, short_negY, map_neg, neg_div])]
    · have apart : ¬(embed x₁ / u ^ 2 = embed x₂ / u ^ 2 ∧
          embed y₁ / u ^ 3 = (short a b).negY (embed x₂ / u ^ 2) (embed y₂ / u ^ 3)) := by
        rintro ⟨abscissas, ordinates⟩
        rw [short_negY, ← neg_div, ← map_neg] at ordinates
        exact opposite ⟨scales.injective_div abscissas,
          (scales.injective_div ordinates).trans (short_negY x₂ y₂).symm⟩
      have nonzero := scales.nonzero
      rw [Point.add_some opposite, Point.add_some apart, Point.some.injEq,
        scales.slope on₁ on₂ opposite, short_addX, short_addX, short_addY, short_addY]
      simp only [map_sub, map_mul, map_pow]
      constructor
      · field_simp
      · field_simp

end Pbc.Elliptic
