import Mathlib.NumberTheory.EllipticDivisibilitySequence
import Pbc.Elliptic.Miller

/-!
# Division sequences

The abscissas of the sum and of the difference of two points are the roots of a
quadratic polynomial that is symmetric in the two abscissas and the unknown. This
gives the recurrences of the division polynomials at a point: each product of two
neighbours of a term is the square of the term times a difference of abscissas.
-/

open WeierstrassCurve.Affine

namespace Pbc.Elliptic

section Abscissas

variable {F : Type*} [Field F] {a b : F}

/-- The abscissa of a point, zero at infinity. -/
def abscissa : (short a b).Point → F
  | .zero => 0
  | .some x _ _ => x

@[simp] theorem abscissa_zero : abscissa (0 : (short a b).Point) = 0 := rfl

@[simp] theorem abscissa_some {x y : F} (on : (short a b).Nonsingular x y) :
    abscissa (.some x y on : (short a b).Point) = x := rfl

@[simp] theorem abscissa_neg (A : (short a b).Point) : abscissa (-A) = abscissa A := by
  cases A with
  | zero => rfl
  | some x y on => rfl

/-- Symmetric in `t`, `x` and `z`; for the abscissas `x`, `z` of two points, its roots in
`t` are the abscissas of their sum and of their difference. -/
def addForm (a b t x z : F) : F :=
  t ^ 2 * (x - z) ^ 2 - 2 * t * ((x + z) * (a + x * z) + 2 * b) + ((x * z - a) ^ 2 - 4 * b * (x + z))

theorem addForm_rotate (t x z : F) : addForm a b t x z = addForm a b x z t := by
  simp only [addForm]
  ring

/-- The slopes of the lines from a point to two opposite points. -/
theorem slopes_mul {x y x₁ y₁ l l' : F} (apart : x - x₁ ≠ 0) (curve : y ^ 2 = x ^ 3 + a * x + b)
    (curve₁ : y₁ ^ 2 = x₁ ^ 3 + a * x₁ + b) (slope : l * (x - x₁) = y - y₁)
    (slope' : l' * (x - x₁) = y - -y₁) : l * l' * (x - x₁) = x ^ 2 + x * x₁ + x₁ ^ 2 + a := by
  apply mul_right_cancel₀ apart
  linear_combination l' * (x - x₁) * slope + (y - y₁) * slope' + curve - curve₁

variable [DecidableEq F]

theorem abscissa_add {x y x₁ y₁ : F} (on : (short a b).Nonsingular x y)
    (on₁ : (short a b).Nonsingular x₁ y₁) (distinct : x ≠ x₁) :
    abscissa (.some x y on + .some x₁ y₁ on₁ : (short a b).Point) =
      ((y - y₁) / (x - x₁)) ^ 2 - x - x₁ := by
  rw [Point.add_some fun equal => distinct equal.1, abscissa_some, short_addX,
    short_slope_of_ne y y₁ distinct]

/-- Neither equal nor opposite points have distinct abscissas. -/
theorem abscissa_ne {A B : (short a b).Point} (left : A ≠ 0) (right : B ≠ 0) (sum : A + B ≠ 0)
    (difference : A - B ≠ 0) : abscissa A ≠ abscissa B := by
  cases A with
  | zero => exact absurd rfl left
  | some x y on =>
    cases B with
    | zero => exact absurd rfl right
    | some x₁ y₁ on₁ =>
      intro same
      change x = x₁ at same
      subst same
      have either : Point.some _ _ on = .some _ _ on₁ ∨ _ := eq_or_add_eq_zero_of_x_eq
      rcases either with equal | opposite
      · exact difference (sub_eq_zero.mpr equal)
      · exact sum opposite

/-- The abscissas of the sum and of the difference are the roots. -/
theorem addForm_eq {A B : (short a b).Point} (left : A ≠ 0) (right : B ≠ 0) (sum : A + B ≠ 0)
    (difference : A - B ≠ 0) (t : F) :
    (abscissa A - abscissa B) ^ 2 * (t - abscissa (A + B)) * (t - abscissa (A - B)) =
      addForm a b t (abscissa A) (abscissa B) := by
  have distinct := abscissa_ne left right sum difference
  cases A with
  | zero => exact absurd rfl left
  | some x y on =>
    cases B with
    | zero => exact absurd rfl right
    | some x₁ y₁ on₁ =>
      change x ≠ x₁ at distinct
      have apart : x - x₁ ≠ 0 := sub_ne_zero.mpr distinct
      have curve := short_nonsingular_eq on
      have curve₁ := short_nonsingular_eq on₁
      have opposite := short_nonsingular_neg on₁
      have negated := short_neg_some on₁
      rw [sub_eq_add_neg (Point.some x y on), negated, abscissa_add on on₁ distinct,
        abscissa_add on opposite distinct]
      simp only [abscissa_some, addForm]
      have slope := div_mul_cancel₀ (y - y₁) apart
      have slope' := div_mul_cancel₀ (y - -y₁) apart
      generalize (y - y₁) / (x - x₁) = l at *
      generalize (y - -y₁) / (x - x₁) = l' at *
      have product := slopes_mul apart curve curve₁ slope slope'
      have shifted (l : F) : t - (l ^ 2 - x - x₁) = t + x + x₁ - l ^ 2 := by ring
      have expanded (d e l l' : F) : d ^ 2 * (e - l ^ 2) * (e - l' ^ 2) =
          e ^ 2 * d ^ 2 - e * ((l * d) ^ 2 + (l' * d) ^ 2) + (l * l' * d) ^ 2 := by ring
      rw [shifted, shifted, expanded, slope, slope', product]
      linear_combination -2 * (t + x + x₁) * (curve + curve₁)

/-- The sum of the two roots. -/
theorem abscissa_add_sub (two : (2 : F) ≠ 0) {A B : (short a b).Point} (left : A ≠ 0)
    (right : B ≠ 0) (sum : A + B ≠ 0) (difference : A - B ≠ 0) :
    (abscissa A - abscissa B) ^ 2 * (abscissa (A + B) + abscissa (A - B)) =
      2 * ((abscissa A + abscissa B) * (a + abscissa A * abscissa B) + 2 * b) := by
  have plus := addForm_eq left right sum difference 1
  have minus := addForm_eq left right sum difference (-1)
  simp only [addForm] at plus minus
  apply mul_left_cancel₀ two
  linear_combination minus - plus

/-- At the double of a point the two roots coincide with infinity. -/
theorem addForm_self {A : (short a b).Point} (left : A ≠ 0) (double : A + A ≠ 0) (t : F) :
    4 * (abscissa A ^ 3 + a * abscissa A + b) * (abscissa (A + A) - t) =
      addForm a b t (abscissa A) (abscissa A) := by
  cases A with
  | zero => exact absurd rfl left
  | some x y on =>
    have curve := short_nonsingular_eq on
    have apart : y ≠ -y := fun equal =>
      double (Point.add_of_Y_eq rfl (equal.trans (short_negY x y).symm))
    have ordinate : 2 * y ≠ 0 := by
      intro zero
      exact apart (by linear_combination zero)
    rw [Point.add_some fun equal => apart (equal.2.trans (short_negY x y))]
    simp only [abscissa_some, short_addX, short_slope_self apart, addForm]
    rw [← curve]
    have slope := div_mul_cancel₀ (3 * x ^ 2 + a) ordinate
    have cleared : 4 * y ^ 2 * (((3 * x ^ 2 + a) / (2 * y)) ^ 2 - x - x - t) =
        (3 * x ^ 2 + a) ^ 2 - 4 * (2 * x + t) * y ^ 2 := by
      linear_combination ((3 * x ^ 2 + a) / (2 * y) * (2 * y) + (3 * x ^ 2 + a)) * slope
    rw [cleared, curve]
    ring

/-- Three points in any position meet one form three times. -/
theorem abscissa_relation {P S R : (short a b).Point} (first : P ≠ 0) (second : S ≠ 0)
    (third : R ≠ 0) (above : S + P ≠ 0) (below : S - P ≠ 0) (sum : R + S ≠ 0)
    (difference : R - S ≠ 0) :
    (abscissa P - abscissa S) ^ 2 * (abscissa (S - P) - abscissa R) *
        (abscissa (S + P) - abscissa R) =
      (abscissa S - abscissa R) ^ 2 * (abscissa P - abscissa (R + S)) *
        (abscissa P - abscissa (R - S)) := by
  have left := addForm_eq second first above below (abscissa R)
  have right := addForm_eq third second sum difference (abscissa P)
  rw [addForm_rotate] at right
  linear_combination left - right

end Abscissas

section Chain

variable {F : Type*} [Field F] [DecidableEq F] {a b : F}

/-- The sequence that starts with `0, 1, w` and in which two neighbours of the `n`-th term
multiply to its square times the difference of the abscissas of `P` and `n P`. -/
noncomputable def chain (P : (short a b).Point) (w : F) : ℕ → F
  | 0 => 0
  | 1 => 1
  | 2 => w
  | n + 3 => chain P w (n + 2) ^ 2 * (abscissa P - abscissa ((n + 2) • P)) / chain P w (n + 1)

variable {P : (short a b).Point} {N : ℕ} (finite : ∀ j, 0 < j → j ≤ N → j • P ≠ 0) {w : F}
  (start : w ^ 2 = 4 * (abscissa P ^ 3 + a * abscissa P + b))

include finite

/-- Two multiples below the bound have distinct abscissas. -/
theorem abscissa_nsmul_ne {m n : ℕ} (positive : 0 < n) (above : n < m) (bounded : m + n ≤ N) :
    abscissa (m • P) ≠ abscissa (n • P) := by
  apply abscissa_ne (finite m (by omega) (by omega)) (finite n positive (by omega))
  · rw [← add_nsmul]
    exact finite (m + n) (by omega) bounded
  · obtain ⟨k, rfl⟩ := Nat.exists_eq_add_of_lt above
    rw [add_assoc, add_nsmul, add_sub_cancel_left]
    exact finite (k + 1) (by omega) (by omega)

theorem chain_ne_zero (nonzero : w ≠ 0) (n : ℕ) (positive : 0 < n) (bounded : n ≤ N) :
    chain P w n ≠ 0 := by
  induction n using Nat.strong_induction_on with
  | _ n ih =>
    match n, positive with
    | 1, _ => exact one_ne_zero
    | 2, _ => exact nonzero
    | n + 3, _ =>
      have distinct := abscissa_nsmul_ne finite (n := 1) (m := n + 2) (by omega) (by omega)
        (by omega)
      rw [one_nsmul] at distinct
      rw [chain]
      exact div_ne_zero (mul_ne_zero (pow_ne_zero 2 (ih (n + 2) (by omega) (by omega) (by omega)))
        (sub_ne_zero.mpr distinct.symm)) (ih (n + 1) (by omega) (by omega) (by omega))

theorem chain_neighbours (nonzero : w ≠ 0) {n : ℕ} (bounded : n + 1 ≤ N) :
    chain P w (n + 2) * chain P w n =
      chain P w (n + 1) ^ 2 * (abscissa P - abscissa ((n + 1) • P)) := by
  match n with
  | 0 => rw [chain, zero_add, one_nsmul, sub_self, mul_zero, mul_zero]
  | n + 1 =>
    rw [chain, div_mul_cancel₀ _ (chain_ne_zero finite nonzero (n + 1) (by omega) (by omega))]

/-- The relation of abscissas at the multiples `j + 2` and `j + k + 3`. -/
theorem abscissa_nsmul_relation {j k : ℕ} (bounded : 2 * j + k + 5 ≤ N) :
    (abscissa P - abscissa ((j + 2) • P)) ^ 2 *
          (abscissa ((j + 1) • P) - abscissa ((j + k + 3) • P)) *
        (abscissa ((j + 3) • P) - abscissa ((j + k + 3) • P)) =
      (abscissa ((j + 2) • P) - abscissa ((j + k + 3) • P)) ^ 2 *
          (abscissa P - abscissa ((2 * j + k + 5) • P)) *
        (abscissa P - abscissa ((k + 1) • P)) := by
  have single : P ≠ 0 := by
    have := finite 1 one_pos (by omega)
    rwa [one_nsmul] at this
  have above : (j + 2) • P + P = (j + 3) • P := (succ_nsmul P (j + 2)).symm
  have below : (j + 2) • P - P = (j + 1) • P := sub_eq_of_eq_add (succ_nsmul P (j + 1))
  have sum : (j + k + 3) • P + (j + 2) • P = (2 * j + k + 5) • P := by
    rw [← add_nsmul]
    congr 1
    omega
  have difference : (j + k + 3) • P - (j + 2) • P = (k + 1) • P := by
    rw [sub_eq_iff_eq_add, ← add_nsmul]
    congr 1
    omega
  have relation := abscissa_relation single (finite (j + 2) (by omega) (by omega))
    (finite (j + k + 3) (by omega) (by omega))
    (above ▸ finite (j + 3) (by omega) (by omega)) (below ▸ finite (j + 1) (by omega) (by omega))
    (sum ▸ finite (2 * j + k + 5) (by omega) bounded)
    (difference ▸ finite (k + 1) (by omega) (by omega))
  rwa [above, below, sum, difference] at relation

/-- The same at the multiple two, where the lower neighbour is at infinity. -/
theorem abscissa_nsmul_relation_two {k : ℕ} (bounded : k + 3 ≤ N) (apart : 1 ≤ k) :
    4 * (abscissa P ^ 3 + a * abscissa P + b) *
        (abscissa (2 • P) - abscissa ((k + 2) • P)) =
      (abscissa P - abscissa ((k + 2) • P)) ^ 2 * (abscissa P - abscissa ((k + 3) • P)) *
        (abscissa P - abscissa ((k + 1) • P)) := by
  have single : P ≠ 0 := by
    have := finite 1 one_pos (by omega)
    rwa [one_nsmul] at this
  have double : P + P ≠ 0 := by
    have := finite 2 two_pos (by omega)
    rwa [two_nsmul] at this
  have above : (k + 2) • P + P = (k + 3) • P := (succ_nsmul P (k + 2)).symm
  have below : (k + 2) • P - P = (k + 1) • P := sub_eq_of_eq_add (succ_nsmul P (k + 1))
  have form := addForm_eq (finite (k + 2) (by omega) (by omega)) single
    (above ▸ finite (k + 3) (by omega) bounded) (below ▸ finite (k + 1) (by omega) (by omega))
    (abscissa P)
  rw [above, below, addForm_rotate, ← addForm_self single double] at form
  rw [two_nsmul]
  linear_combination -form

variable (nonzero : w ≠ 0)

include nonzero in
/-- The step of the induction below, from two neighbouring cases to the next one. -/
private theorem chain_mul_step {j k : ℕ} (bounded : 2 * j + k + 6 ≤ N)
    (before : chain P w (2 * j + k + 4) * chain P w (k + 2) =
      chain P w (j + k + 3) ^ 2 * chain P w (j + 1) ^ 2 *
        (abscissa ((j + 1) • P) - abscissa ((j + k + 3) • P)))
    (current : chain P w (2 * j + k + 5) * chain P w (k + 1) =
      chain P w (j + k + 3) ^ 2 * chain P w (j + 2) ^ 2 *
        (abscissa ((j + 2) • P) - abscissa ((j + k + 3) • P))) :
    chain P w (2 * j + k + 6) * chain P w k =
      chain P w (j + k + 3) ^ 2 * chain P w (j + 3) ^ 2 *
        (abscissa ((j + 3) • P) - abscissa ((j + k + 3) • P)) := by
  have high : chain P w (2 * j + k + 6) * chain P w (2 * j + k + 4) = _ :=
    chain_neighbours finite nonzero (n := 2 * j + k + 4) (by omega)
  have low : chain P w (k + 2) * chain P w k = _ :=
    chain_neighbours finite nonzero (n := k) (by omega)
  have middle : chain P w (j + 3) * chain P w (j + 1) = _ :=
    chain_neighbours finite nonzero (n := j + 1) (by omega)
  have relation := abscissa_nsmul_relation finite (j := j) (k := k) (by omega)
  have factor : chain P w (2 * j + k + 4) * chain P w (k + 2) ≠ 0 :=
    mul_ne_zero (chain_ne_zero finite nonzero _ (by omega) (by omega))
      (chain_ne_zero finite nonzero _ (by omega) (by omega))
  apply mul_left_cancel₀ factor
  calc chain P w (2 * j + k + 4) * chain P w (k + 2) * (chain P w (2 * j + k + 6) * chain P w k)
      = (chain P w (2 * j + k + 6) * chain P w (2 * j + k + 4)) *
          (chain P w (k + 2) * chain P w k) := by ring
    _ = (chain P w (2 * j + k + 5) * chain P w (k + 1)) ^ 2 *
          ((abscissa P - abscissa ((2 * j + k + 5) • P)) *
            (abscissa P - abscissa ((k + 1) • P))) := by
        rw [high, low]
        ring
    _ = chain P w (j + k + 3) ^ 4 * (chain P w (j + 3) * chain P w (j + 1)) ^ 2 *
          ((abscissa ((j + 1) • P) - abscissa ((j + k + 3) • P)) *
            (abscissa ((j + 3) • P) - abscissa ((j + k + 3) • P))) := by
        rw [current, middle]
        linear_combination -(chain P w (j + k + 3) ^ 4 * chain P w (j + 2) ^ 4) * relation
    _ = _ := by
        rw [before]
        ring

include nonzero start in
/-- The product of the terms at a sum and at a difference. -/
theorem chain_mul (n k : ℕ) (positive : 0 < n) (apart : 0 < k) (bounded : 2 * n + k ≤ N) :
    chain P w (2 * n + k) * chain P w k =
      chain P w (n + k) ^ 2 * chain P w n ^ 2 * (abscissa (n • P) - abscissa ((n + k) • P)) := by
  induction n using Nat.strong_induction_on generalizing k with
  | _ n ih =>
    match n, positive with
    | 1, _ =>
      have neighbours := chain_neighbours finite nonzero (n := k) (by omega)
      rw [one_nsmul, show 2 * 1 + k = k + 2 by omega, show 1 + k = k + 1 by omega, neighbours, chain]
      ring
    | 2, _ =>
      have high : chain P w (k + 4) * chain P w (k + 2) = _ :=
        chain_neighbours finite nonzero (n := k + 2) (by omega)
      have low := chain_neighbours finite nonzero (n := k) (by omega)
      have middle : chain P w (k + 3) * chain P w (k + 1) = _ :=
        chain_neighbours finite nonzero (n := k + 1) (by omega)
      have relation := abscissa_nsmul_relation_two finite (k := k) (by omega) apart
      rw [← start] at relation
      have factor : chain P w (k + 2) ^ 2 ≠ 0 :=
        pow_ne_zero 2 (chain_ne_zero finite nonzero _ (by omega) (by omega))
      rw [show 2 * 2 + k = k + 4 by omega, show 2 + k = k + 2 by omega]
      apply mul_left_cancel₀ factor
      calc chain P w (k + 2) ^ 2 * (chain P w (k + 4) * chain P w k)
          = (chain P w (k + 4) * chain P w (k + 2)) * (chain P w (k + 2) * chain P w k) := by ring
        _ = (chain P w (k + 3) * chain P w (k + 1)) ^ 2 *
              ((abscissa P - abscissa ((k + 3) • P)) * (abscissa P - abscissa ((k + 1) • P))) := by
            rw [high, low]
            ring
        _ = _ := by
            rw [middle, chain]
            linear_combination -chain P w (k + 2) ^ 4 * relation
    | j + 3, _ =>
      have before := ih (j + 1) (by omega) (k + 2) (by omega) (by omega) (by omega)
      have current := ih (j + 2) (by omega) (k + 1) (by omega) (by omega) (by omega)
      rw [show 2 * (j + 1) + (k + 2) = 2 * j + k + 4 by omega,
        show j + 1 + (k + 2) = j + k + 3 by omega] at before
      rw [show 2 * (j + 2) + (k + 1) = 2 * j + k + 5 by omega,
        show j + 2 + (k + 1) = j + k + 3 by omega] at current
      rw [show 2 * (j + 3) + k = 2 * j + k + 6 by omega, show j + 3 + k = j + k + 3 by omega]
      exact chain_mul_step finite nonzero (by omega) before current

end Chain

section Division

variable {F : Type*} [Field F] {a b : F}

/-- The division polynomials of `y^2 = x^3 + a x + b` at the point `(x, y)`. -/
def divisionValue (a b x y : F) (n : ℤ) : F :=
  normEDS (2 * y) (3 * x ^ 4 + 6 * a * x ^ 2 + 12 * b * x - a ^ 2)
    (2 * (x ^ 6 + 5 * a * x ^ 4 + 20 * b * x ^ 3 - 5 * a ^ 2 * x ^ 2 - 4 * a * b * x -
      8 * b ^ 2 - a ^ 3)) n

theorem divisionValue_even (x y : F) (m : ℤ) :
    divisionValue a b x y (2 * m) * (2 * y) =
      divisionValue a b x y (m - 1) ^ 2 * divisionValue a b x y m * divisionValue a b x y (m + 2) -
        divisionValue a b x y (m - 2) * divisionValue a b x y m * divisionValue a b x y (m + 1) ^ 2 :=
  normEDS_even ..

theorem divisionValue_odd (x y : F) (m : ℤ) :
    divisionValue a b x y (2 * m + 1) =
      divisionValue a b x y (m + 2) * divisionValue a b x y m ^ 3 -
        divisionValue a b x y (m - 1) * divisionValue a b x y (m + 1) ^ 3 :=
  normEDS_odd ..

variable [DecidableEq F] {x y : F} {on : (short a b).Nonsingular x y} {N : ℕ}
  (finite : ∀ j, 0 < j → j ≤ N → j • (.some x y on : (short a b).Point) ≠ 0)
  (nonzero : 2 * y ≠ 0)

include finite

private theorem chain_three (bounded : 3 ≤ N) :
    chain (.some x y on : (short a b).Point) (2 * y) 3 =
      (2 * y) ^ 2 * (x - abscissa (2 • .some x y on : (short a b).Point)) ∧
    (2 * y) ^ 2 * (x - abscissa (2 • .some x y on : (short a b).Point)) =
      3 * x ^ 4 + 6 * a * x ^ 2 + 12 * b * x - a ^ 2 := by
  have curve := short_nonsingular_eq on
  have double := finite 2 two_pos (by omega)
  rw [two_nsmul] at double
  have form := addForm_self (Point.some_ne_zero on) double x
  rw [abscissa_some, ← curve] at form
  simp only [addForm] at form
  refine ⟨div_one _, ?_⟩
  rw [two_nsmul]
  linear_combination -form

include nonzero

private theorem chain_four (bounded : 4 ≤ N) :
    chain (.some x y on : (short a b).Point) (2 * y) 4 =
      2 * (x ^ 6 + 5 * a * x ^ 4 + 20 * b * x ^ 3 - 5 * a ^ 2 * x ^ 2 - 4 * a * b * x -
        8 * b ^ 2 - a ^ 3) * (2 * y) := by
  have curve := short_nonsingular_eq on
  have neighbours : chain (.some x y on : (short a b).Point) (2 * y) 4 * (2 * y) =
      chain (.some x y on : (short a b).Point) (2 * y) 3 ^ 2 *
        (x - abscissa (3 • .some x y on : (short a b).Point)) :=
    chain_neighbours finite nonzero (n := 2) (by omega)
  have double : (.some x y on + .some x y on : (short a b).Point) ≠ 0 := by
    have := finite 2 two_pos (by omega)
    rwa [two_nsmul] at this
  have above : (2 • .some x y on + .some x y on : (short a b).Point) = 3 • .some x y on :=
    (succ_nsmul _ 2).symm
  have below : (2 • .some x y on - .some x y on : (short a b).Point) = .some x y on := by
    rw [two_nsmul, add_sub_cancel_right]
  have form := addForm_self (Point.some_ne_zero on) double 0
  have sum := abscissa_add_sub (left_ne_zero_of_mul nonzero) (finite 2 two_pos (by omega))
    (Point.some_ne_zero on) (above.symm ▸ finite 3 three_pos (by omega))
    (below.symm ▸ Point.some_ne_zero on)
  rw [above, below] at sum
  simp only [abscissa_some, addForm] at sum form
  rw [← two_nsmul] at form
  rw [(chain_three finite (by omega)).1] at neighbours
  generalize abscissa (2 • .some x y on : (short a b).Point) = X at *
  generalize abscissa (3 • .some x y on : (short a b).Point) = Z at *
  apply mul_right_cancel₀ nonzero
  calc chain (.some x y on : (short a b).Point) (2 * y) 4 * (2 * y)
      = (4 * y ^ 2) ^ 2 * (2 * x * (X - x) ^ 2 - (X - x) ^ 2 * (Z + x)) := by
        rw [neighbours]
        ring
    _ = 2 * (4 * y ^ 2) * (4 * y ^ 2 * (x ^ 3 - a * x - 2 * b) -
          (3 * x ^ 2 + a) * (4 * y ^ 2 * X)) := by
        rw [sum]
        ring
    _ = _ := by
        rw [← curve, sub_zero] at form
        rw [form]
        linear_combination 32 * y ^ 2 * (x ^ 3 - a * x - 2 * b) * curve

/-- Up to the bound the division polynomials continue the chain. -/
theorem divisionValue_eq_chain (n : ℕ) (bounded : n ≤ N) :
    divisionValue a b x y n = chain (.some x y on : (short a b).Point) (2 * y) n := by
  have start : (2 * y) ^ 2 = 4 * (abscissa (.some x y on : (short a b).Point) ^ 3 +
      a * abscissa (.some x y on : (short a b).Point) + b) := by
    rw [abscissa_some, ← short_nonsingular_eq on]
    ring
  induction n using normEDSRec' with
  | zero => exact normEDS_zero ..
  | one => exact normEDS_one ..
  | two => exact normEDS_two ..
  | three =>
    obtain ⟨unfolded, value⟩ := chain_three finite bounded
    exact (normEDS_three ..).trans (unfolded.trans value).symm
  | four => exact (normEDS_four ..).trans (chain_four finite nonzero bounded).symm
  | even m ih =>
    have product := chain_mul finite start nonzero (m + 2) 2 (by omega) two_pos (by omega)
    have upper := chain_neighbours finite nonzero (n := m + 3) (by omega)
    have lower := chain_neighbours finite nonzero (n := m + 1) (by omega)
    have recurrence := divisionValue_even (a := a) (b := b) x y (m + 3 : ℕ)
    rw [show ((m + 3 : ℕ) : ℤ) - 1 = (m + 2 : ℕ) by omega,
      show ((m + 3 : ℕ) : ℤ) - 2 = (m + 1 : ℕ) by omega,
      show ((m + 3 : ℕ) : ℤ) + 1 = (m + 4 : ℕ) by omega,
      show ((m + 3 : ℕ) : ℤ) + 2 = (m + 5 : ℕ) by omega,
      ih (m + 1) (by omega) (by omega), ih (m + 2) (by omega) (by omega),
      ih (m + 3) (by omega) (by omega), ih (m + 4) (by omega) (by omega),
      ih (m + 5) (by omega) (by omega)] at recurrence
    rw [Nat.cast_mul, Nat.cast_ofNat]
    apply mul_right_cancel₀ nonzero
    rw [recurrence]
    rw [show 2 * (m + 2) + 2 = 2 * (m + 3) by omega, show m + 2 + 2 = m + 4 by omega] at product
    refine Eq.trans ?_ product.symm
    linear_combination chain (.some x y on) (2 * y) (m + 2) ^ 2 * upper -
      chain (.some x y on) (2 * y) (m + 4) ^ 2 * lower
  | odd m ih =>
    have product := chain_mul finite start nonzero (m + 2) 1 (by omega) one_pos (by omega)
    have upper := chain_neighbours finite nonzero (n := m + 2) (by omega)
    have lower := chain_neighbours finite nonzero (n := m + 1) (by omega)
    have recurrence := divisionValue_odd (a := a) (b := b) x y (m + 2 : ℕ)
    rw [show ((m + 2 : ℕ) : ℤ) - 1 = (m + 1 : ℕ) by omega,
      show ((m + 2 : ℕ) : ℤ) + 1 = (m + 3 : ℕ) by omega,
      show ((m + 2 : ℕ) : ℤ) + 2 = (m + 4 : ℕ) by omega,
      ih (m + 1) (by omega) (by omega), ih (m + 2) (by omega) (by omega),
      ih (m + 3) (by omega) (by omega), ih (m + 4) (by omega) (by omega)] at recurrence
    rw [Nat.cast_add, Nat.cast_mul, Nat.cast_ofNat, Nat.cast_one, recurrence]
    rw [show chain (.some x y on : (short a b).Point) (2 * y) 1 = 1 from rfl, mul_one] at product
    rw [product]
    linear_combination chain (.some x y on) (2 * y) (m + 2) ^ 2 * upper -
      chain (.some x y on) (2 * y) (m + 3) ^ 2 * lower

theorem divisionValue_ne_zero {n : ℕ} (positive : 0 < n) (bounded : n ≤ N) :
    divisionValue a b x y n ≠ 0 := by
  rw [divisionValue_eq_chain finite nonzero n bounded]
  exact chain_ne_zero finite nonzero n positive bounded

/-- Two neighbours of a division polynomial, at a point none of whose multiples up to the
bound is infinite. -/
theorem divisionValue_neighbours {n : ℕ} (bounded : n + 2 ≤ N) :
    divisionValue a b x y (n + 2 : ℕ) * divisionValue a b x y n =
      divisionValue a b x y (n + 1 : ℕ) ^ 2 *
        (x - abscissa ((n + 1) • .some x y on : (short a b).Point)) := by
  rw [divisionValue_eq_chain finite nonzero _ bounded,
    divisionValue_eq_chain finite nonzero n (by omega),
    divisionValue_eq_chain finite nonzero (n + 1) (by omega)]
  exact chain_neighbours finite nonzero (by omega)

end Division

end Pbc.Elliptic
