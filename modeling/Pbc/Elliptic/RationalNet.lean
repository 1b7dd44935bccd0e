import Pbc.Elliptic.RationalLine

/-!
# Elliptic nets at a rational point

The terms of an elliptic net with second index one, at a point and a second one over the
same field. Two neighbours of a term multiply to its square times the distance of the
abscissas of the first point and of the sum of its multiple and the second point. The
terms are division polynomials times lines over verticals, and the term beyond the order
of the first point has the symbol of the lines along the order.
-/

open WeierstrassCurve.Affine
open Pbc.Algebra

namespace Pbc.Elliptic

section Recurrence

variable {F : Type*} [Field F] {c : F} {s : ℕ → F}

/-- The sequence that starts with `1, c` and in which two neighbours of the `n`-th term
multiply to its square times `s n`. -/
def recurrence (c : F) (s : ℕ → F) : ℕ → F
  | 0 => 1
  | 1 => c
  | n + 2 => recurrence c s (n + 1) ^ 2 * s (n + 1) / recurrence c s n

variable (start : c ≠ 0) (nonzero : ∀ n, s n ≠ 0)

include start nonzero

theorem recurrence_ne_zero (n : ℕ) : recurrence c s n ≠ 0 := by
  induction n using Nat.twoStepInduction with
  | zero => exact one_ne_zero
  | one => exact start
  | more n before current =>
    rw [recurrence]
    exact div_ne_zero (mul_ne_zero (pow_ne_zero 2 current) (nonzero (n + 1))) before

theorem recurrence_neighbours (n : ℕ) :
    recurrence c s (n + 2) * recurrence c s n = recurrence c s (n + 1) ^ 2 * s (n + 1) := by
  rw [recurrence, div_mul_cancel₀ _ (recurrence_ne_zero start nonzero n)]

end Recurrence

variable {F : Type*} [Field F] [DecidableEq F] {a b : F}

namespace FinitePoint

variable (Q : FinitePoint a b) (P : (short a b).Point)

/-- The distance of the abscissas of the first point and of the sum. -/
noncomputable def distance (k : ℤ) : F := abscissa P - abscissa (k • P + Q.point)

/-- The terms of the net with second index one. -/
noncomputable def net : ℤ → F
  | .ofNat n => recurrence 1 (fun i => Q.distance P i) n
  | .negSucc n => recurrence (Q.distance P 0) (fun i => Q.distance P (-i)) (n + 1)

theorem net_natCast (n : ℕ) : Q.net P n = recurrence 1 (fun i => Q.distance P i) n := rfl

theorem net_neg_natCast (n : ℕ) :
    Q.net P (-n) = recurrence (Q.distance P 0) (fun i => Q.distance P (-i)) n := by
  cases n with
  | zero => rfl
  | succ n => rfl

@[simp] theorem net_zero : Q.net P 0 = 1 := rfl

@[simp] theorem net_one : Q.net P 1 = 1 := rfl

theorem net_neg_one : Q.net P (-1) = Q.distance P 0 := rfl

section Points

variable {P} (outside : ∀ k : ℤ, k • P ≠ Q.point) (first : P ≠ 0)

include outside

/-- No sum of a multiple and the second point is at infinity or has the abscissa of another
multiple. -/
theorem zsmul_add_point_ne_zero (j k : ℤ) : j • P + (k • P + Q.point) ≠ 0 := by
  intro zero
  apply outside (-(j + k))
  rw [neg_zsmul, add_zsmul, eq_comm, eq_neg_iff_add_eq_zero, ← zero]
  abel

theorem add_point_ne_zero (k : ℤ) : k • P + Q.point ≠ 0 := by
  have nonzero := Q.zsmul_add_point_ne_zero outside 0 k
  rwa [zero_zsmul, zero_add] at nonzero

include first

theorem distance_ne_zero (k : ℤ) : Q.distance P k ≠ 0 := by
  rw [distance, sub_ne_zero]
  apply abscissa_ne first (Q.add_point_ne_zero outside k)
  · have sum := Q.zsmul_add_point_ne_zero outside 1 k
    rwa [one_zsmul] at sum
  · intro difference
    apply Q.zsmul_add_point_ne_zero outside (-1) k
    rw [neg_zsmul, one_zsmul, ← neg_eq_zero, ← difference]
    abel

theorem net_ne_zero (k : ℤ) : Q.net P k ≠ 0 := by
  have apart := Q.distance_ne_zero outside first
  obtain ⟨n, rfl | rfl⟩ := k.eq_nat_or_neg
  · exact recurrence_ne_zero one_ne_zero (fun i => apart i) n
  · rw [net_neg_natCast]
    exact recurrence_ne_zero (apart 0) (fun i => apart (-i)) n

/-- Two neighbours of a term. -/
theorem net_neighbours (k : ℤ) :
    Q.net P (k + 1) * Q.net P (k - 1) = Q.net P k ^ 2 * Q.distance P k := by
  have apart := Q.distance_ne_zero outside first
  obtain ⟨n, rfl | rfl⟩ := k.eq_nat_or_neg
  · cases n with
    | zero =>
      change 1 * Q.distance P 0 = 1 ^ 2 * Q.distance P 0
      rw [one_pow]
    | succ n =>
      rw [show ((n + 1 : ℕ) : ℤ) + 1 = (n + 2 : ℕ) by omega,
        show ((n + 1 : ℕ) : ℤ) - 1 = (n : ℕ) by omega, net_natCast, net_natCast, net_natCast]
      exact recurrence_neighbours one_ne_zero (fun i => apart i) n
  · cases n with
    | zero =>
      change 1 * Q.distance P 0 = 1 ^ 2 * Q.distance P 0
      rw [one_pow]
    | succ n =>
      rw [show -((n + 1 : ℕ) : ℤ) + 1 = -(n : ℕ) by omega,
        show -((n + 1 : ℕ) : ℤ) - 1 = -(n + 2 : ℕ) by omega, net_neg_natCast, net_neg_natCast,
        net_neg_natCast, mul_comm]
      exact recurrence_neighbours (apart 0) (fun i => apart (-i)) n

end Points

section Terms

variable {Q} {x y : F} {on : (short a b).Nonsingular x y} {N : ℕ}
  (outside : ∀ k : ℤ, k • (.some x y on : (short a b).Point) ≠ Q.point)
  (finite : ∀ j, 0 < j → j ≤ N → j • (.some x y on : (short a b).Point) ≠ 0)
  (nonzero : 2 * y ≠ 0)

/-- The sum of a multiple and the second point, moved by another multiple. -/
private theorem add_point_move (A : (short a b).Point) (k : ℤ) (j : ℕ) :
    k • A + Q.point + j • A = (k + j) • A + Q.point ∧
      k • A + Q.point - j • A = (k - j) • A + Q.point := by
  rw [add_zsmul, sub_zsmul, natCast_zsmul]
  constructor
  · abel
  · abel

include outside finite

/-- The relation of the abscissas at the multiples `j + 2` and at the sum. -/
private theorem distance_relation (k : ℤ) {j : ℕ} (bounded : j + 3 ≤ N) :
    (x - abscissa ((j + 2) • .some x y on : (short a b).Point)) ^ 2 *
          (abscissa ((j + 1) • .some x y on : (short a b).Point) -
            abscissa (k • .some x y on + Q.point)) *
        (abscissa ((j + 3) • .some x y on : (short a b).Point) -
          abscissa (k • .some x y on + Q.point)) =
      (abscissa ((j + 2) • .some x y on : (short a b).Point) -
            abscissa (k • .some x y on + Q.point)) ^ 2 *
          Q.distance (.some x y on) (k + (j + 2 : ℕ)) *
        Q.distance (.some x y on) (k - (j + 2 : ℕ)) := by
  have above : (j + 2) • .some x y on + .some x y on = (j + 3) • (.some x y on : (short a b).Point) :=
    (succ_nsmul _ (j + 2)).symm
  have below : (j + 2) • .some x y on - .some x y on = (j + 1) • (.some x y on : (short a b).Point) :=
    sub_eq_of_eq_add (succ_nsmul _ (j + 1))
  obtain ⟨sum, difference⟩ := add_point_move (Q := Q) (.some x y on) k (j + 2)
  have relation := abscissa_relation (Point.some_ne_zero on) (finite (j + 2) (by omega) (by omega))
    (Q.add_point_ne_zero outside k) (above ▸ finite (j + 3) (by omega) (by omega))
    (below ▸ finite (j + 1) (by omega) (by omega))
    (sum ▸ Q.add_point_ne_zero outside (k + (j + 2 : ℕ)))
    (difference ▸ Q.add_point_ne_zero outside (k - (j + 2 : ℕ)))
  rwa [above, below, sum, difference] at relation

/-- The same at the point itself, where the lower neighbour is at infinity. -/
private theorem distance_relation_one (k : ℤ) (bounded : 2 ≤ N) :
    (2 * y) ^ 2 * (abscissa (2 • .some x y on : (short a b).Point) -
        abscissa (k • .some x y on + Q.point)) =
      Q.distance (.some x y on) k ^ 2 * Q.distance (.some x y on) (k + 1) *
        Q.distance (.some x y on) (k - 1) := by
  have double : (.some x y on + .some x y on : (short a b).Point) ≠ 0 := by
    have := finite 2 two_pos bounded
    rwa [two_nsmul] at this
  obtain ⟨sum, difference⟩ := add_point_move (Q := Q) (.some x y on) k 1
  rw [one_nsmul, Nat.cast_one] at sum difference
  have left := addForm_self (Point.some_ne_zero on) double (abscissa (k • .some x y on + Q.point))
  have right := addForm_eq (Q.add_point_ne_zero outside k) (Point.some_ne_zero on)
    (sum ▸ Q.add_point_ne_zero outside (k + 1)) (difference ▸ Q.add_point_ne_zero outside (k - 1)) x
  rw [sum, difference, addForm_rotate] at right
  have curve := short_nonsingular_eq on
  rw [abscissa_some] at left right
  rw [two_nsmul, distance, distance, distance, abscissa_some]
  linear_combination left - right +
    4 * (abscissa (.some x y on + .some x y on : (short a b).Point) -
      abscissa (k • .some x y on + Q.point)) * curve

include nonzero

/-- The step of the induction below, from two neighbouring cases to the next one. -/
private theorem net_mul_step (k : ℤ) {j : ℕ} (bounded : j + 3 ≤ N)
    (before : Q.net (.some x y on) (k + (j + 1 : ℕ)) * Q.net (.some x y on) (k - (j + 1 : ℕ)) =
      Q.net (.some x y on) k ^ 2 * divisionValue a b x y (j + 1 : ℕ) ^ 2 *
        (abscissa ((j + 1) • .some x y on : (short a b).Point) -
          abscissa (k • .some x y on + Q.point)))
    (current : Q.net (.some x y on) (k + (j + 2 : ℕ)) * Q.net (.some x y on) (k - (j + 2 : ℕ)) =
      Q.net (.some x y on) k ^ 2 * divisionValue a b x y (j + 2 : ℕ) ^ 2 *
        (abscissa ((j + 2) • .some x y on : (short a b).Point) -
          abscissa (k • .some x y on + Q.point))) :
    Q.net (.some x y on) (k + (j + 3 : ℕ)) * Q.net (.some x y on) (k - (j + 3 : ℕ)) =
      Q.net (.some x y on) k ^ 2 * divisionValue a b x y (j + 3 : ℕ) ^ 2 *
        (abscissa ((j + 3) • .some x y on : (short a b).Point) -
          abscissa (k • .some x y on + Q.point)) := by
  have first : (.some x y on : (short a b).Point) ≠ 0 := Point.some_ne_zero on
  have high := Q.net_neighbours outside first (k + (j + 2 : ℕ))
  have low := Q.net_neighbours outside first (k - (j + 2 : ℕ))
  have middle := divisionValue_neighbours finite nonzero (n := j + 1) bounded
  have relation := distance_relation outside finite k bounded
  rw [show k + (j + 2 : ℕ) + 1 = k + (j + 3 : ℕ) by omega,
    show k + (j + 2 : ℕ) - 1 = k + (j + 1 : ℕ) by omega] at high
  rw [show k - (j + 2 : ℕ) + 1 = k - (j + 1 : ℕ) by omega,
    show k - (j + 2 : ℕ) - 1 = k - (j + 3 : ℕ) by omega] at low
  have factor := mul_ne_zero (Q.net_ne_zero outside first (k + (j + 1 : ℕ)))
    (Q.net_ne_zero outside first (k - (j + 1 : ℕ)))
  apply mul_left_cancel₀ factor
  calc Q.net (.some x y on) (k + (j + 1 : ℕ)) * Q.net (.some x y on) (k - (j + 1 : ℕ)) *
        (Q.net (.some x y on) (k + (j + 3 : ℕ)) * Q.net (.some x y on) (k - (j + 3 : ℕ)))
      = (Q.net (.some x y on) (k + (j + 3 : ℕ)) * Q.net (.some x y on) (k + (j + 1 : ℕ))) *
          (Q.net (.some x y on) (k - (j + 1 : ℕ)) * Q.net (.some x y on) (k - (j + 3 : ℕ))) := by
        ring
    _ = (Q.net (.some x y on) (k + (j + 2 : ℕ)) * Q.net (.some x y on) (k - (j + 2 : ℕ))) ^ 2 *
          (Q.distance (.some x y on) (k + (j + 2 : ℕ)) *
            Q.distance (.some x y on) (k - (j + 2 : ℕ))) := by
        rw [high, low]
        ring
    _ = Q.net (.some x y on) k ^ 4 * (divisionValue a b x y (j + 1 + 2 : ℕ) *
            divisionValue a b x y (j + 1 : ℕ)) ^ 2 *
          ((abscissa ((j + 1) • .some x y on : (short a b).Point) -
              abscissa (k • .some x y on + Q.point)) *
            (abscissa ((j + 3) • .some x y on : (short a b).Point) -
              abscissa (k • .some x y on + Q.point))) := by
        rw [current, middle]
        linear_combination
          -Q.net (.some x y on) k ^ 4 * divisionValue a b x y (j + 2 : ℕ) ^ 4 * relation
    _ = _ := by
        rw [before]
        ring

/-- The terms at a sum and at a difference of indices. -/
theorem net_mul (k : ℤ) (j : ℕ) (positive : 0 < j) (bounded : j ≤ N) :
    Q.net (.some x y on) (k + j) * Q.net (.some x y on) (k - j) =
      Q.net (.some x y on) k ^ 2 * divisionValue a b x y j ^ 2 *
        (abscissa (j • .some x y on : (short a b).Point) -
          abscissa (k • .some x y on + Q.point)) := by
  have first : (.some x y on : (short a b).Point) ≠ 0 := Point.some_ne_zero on
  have terms := Q.net_ne_zero outside first
  have one : divisionValue a b x y 1 = 1 := normEDS_one ..
  have two : divisionValue a b x y 2 = 2 * y := normEDS_two ..
  induction j using Nat.strong_induction_on with
  | _ j ih =>
    match j, positive with
    | 1, _ =>
      have neighbours := Q.net_neighbours outside first k
      rw [Nat.cast_one, one, one_pow, mul_one, one_nsmul]
      exact neighbours
    | 2, _ =>
      have high := Q.net_neighbours outside first (k + 1)
      have low := Q.net_neighbours outside first (k - 1)
      have middle := Q.net_neighbours outside first k
      have relation := distance_relation_one outside finite k bounded
      rw [add_sub_cancel_right, add_assoc, one_add_one_eq_two] at high
      rw [sub_add_cancel, sub_sub, one_add_one_eq_two] at low
      rw [Nat.cast_ofNat, two]
      apply mul_left_cancel₀ (pow_ne_zero 2 (terms k))
      calc Q.net (.some x y on) k ^ 2 * (Q.net (.some x y on) (k + 2) * Q.net (.some x y on) (k - 2))
          = (Q.net (.some x y on) (k + 2) * Q.net (.some x y on) k) *
              (Q.net (.some x y on) k * Q.net (.some x y on) (k - 2)) := by ring
        _ = (Q.net (.some x y on) (k + 1) * Q.net (.some x y on) (k - 1)) ^ 2 *
              (Q.distance (.some x y on) (k + 1) * Q.distance (.some x y on) (k - 1)) := by
            rw [high, low]
            ring
        _ = _ := by
            rw [middle]
            linear_combination -Q.net (.some x y on) k ^ 4 * relation
    | j + 3, _ =>
      exact net_mul_step outside finite nonzero k bounded (ih (j + 1) (by omega) (by omega) (by omega))
        (ih (j + 2) (by omega) (by omega) (by omega))

/-- The combination of neighbouring terms and division polynomials that a step forms. -/
theorem net_combination (k : ℤ) (n : ℕ) (bounded : n + 1 ≤ N) :
    Q.net (.some x y on) (k - 1) * Q.net (.some x y on) (k + 1) * divisionValue a b x y n ^ 2 -
        Q.net (.some x y on) k ^ 2 * (divisionValue a b x y (n - 1) * divisionValue a b x y (n + 1)) =
      Q.net (.some x y on) (k + n) * Q.net (.some x y on) (k - n) := by
  have middle := Q.net_neighbours outside (Point.some_ne_zero on) k
  cases n with
  | zero =>
    have zero : divisionValue a b x y 0 = 0 := normEDS_zero ..
    have one : divisionValue a b x y 1 = 1 := normEDS_one ..
    have opposite : divisionValue a b x y (-1) = -divisionValue a b x y 1 := normEDS_neg ..
    rw [Nat.cast_zero, zero_sub, zero_add, add_zero, sub_zero, zero, opposite, one]
    ring
  | succ n =>
    have product := net_mul outside finite nonzero k (n + 1) n.succ_pos (by omega)
    have neighbours := divisionValue_neighbours finite nonzero (n := n) bounded
    rw [show ((n + 1 : ℕ) : ℤ) - 1 = (n : ℕ) by omega,
      show ((n + 1 : ℕ) : ℤ) + 1 = (n + 2 : ℕ) by omega, product,
      mul_comm (divisionValue a b x y n), neighbours]
    rw [distance, abscissa_some] at middle
    linear_combination divisionValue a b x y (n + 1 : ℕ) ^ 2 * middle

end Terms

section Lines

/-- The product of the lines over the verticals met on the chain `0, P, 2P, ..., nP`. -/
noncomputable def chordProduct : ℕ → F
  | 0 => 1
  | n + 1 => chordProduct n * Q.chord (n • P) P

variable {P} (outside : ∀ k : ℤ, k • P ≠ Q.point)

include outside

/-- No vertical at a multiple is zero. -/
theorem avoids_of_outside (k : ℤ) : Q.eval (vertical (k • P)) ≠ 0 := by
  apply Q.eval_vertical_ne_zero (outside k)
  intro opposite
  apply outside (-k)
  rw [neg_zsmul, opposite, neg_neg]

theorem vertical_nsmul_ne_zero (n : ℕ) : Q.eval (vertical (n • P)) ≠ 0 := by
  have away := Q.avoids_of_outside outside n
  rwa [natCast_zsmul] at away

theorem chordProduct_ne_zero (n : ℕ) : Q.chordProduct P n ≠ 0 := by
  induction n with
  | zero => exact one_ne_zero
  | succ n ih =>
    have chord := Q.chord_ne_zero (Q.avoids_of_outside outside) n 1
    rw [natCast_zsmul, one_zsmul] at chord
    exact mul_ne_zero ih chord

/-- The next vertical cancels. -/
theorem chordProduct_succ_mul (n : ℕ) :
    Q.chordProduct P (n + 1) * Q.eval (vertical ((n + 1) • P)) =
      Q.chordProduct P n * Q.eval (line (n • P) P) := by
  have away := Q.vertical_nsmul_ne_zero outside (n + 1)
  rw [chordProduct, chord, ← succ_nsmul, mul_assoc, div_mul_cancel₀ _ away]

theorem chordProduct_one : Q.chordProduct P 1 = 1 := by
  have away := Q.vertical_nsmul_ne_zero outside 1
  rw [one_nsmul] at away
  rw [chordProduct, chordProduct, chord, zero_nsmul, line_zero_left, zero_add, div_self away, one_mul]

variable {M : Type*} [CommGroup M] {r : ℕ} (symbol : ResidueSymbol F M r)

/-- Its symbol is the product of the cocycle along the chain. -/
theorem of_chordProduct (n : ℕ) :
    symbol.of (Q.chordProduct P n) =
      (Q.cocycle symbol (Q.avoids_of_outside outside)).power 1 n := by
  induction n with
  | zero => rw [chordProduct, symbol.of_one, Cocycle.power_zero]
  | succ n ih =>
    have chord := Q.chord_ne_zero (Q.avoids_of_outside outside) n 1
    rw [Cocycle.power_succ, ← ih, nsmul_one, cocycle_value, natCast_zsmul, one_zsmul, chordProduct]
    rw [natCast_zsmul, one_zsmul] at chord
    exact symbol.of_mul (Q.chordProduct_ne_zero outside n) chord

end Lines

section Explicit

variable {Q} {x y : F} {on : (short a b).Nonsingular x y} {N : ℕ}
  (outside : ∀ k : ℤ, k • (.some x y on : (short a b).Point) ≠ Q.point)
  (finite : ∀ j, 0 < j → j ≤ N → j • (.some x y on : (short a b).Point) ≠ 0)
  (nonzero : 2 * y ≠ 0)

include outside

include finite

/-- The distance at a multiple is a quotient of neighbouring lines. -/
private theorem eval_line_succ {k : ℕ} (positive : 0 < k) (bounded : k + 2 ≤ N) :
    Q.eval (line ((k + 1) • .some x y on) (.some x y on)) *
          Q.eval (vertical (k • (.some x y on : (short a b).Point))) *
        (x - abscissa ((k + 1) • .some x y on : (short a b).Point)) =
      Q.eval (vertical ((k + 1) • (.some x y on : (short a b).Point))) *
          Q.eval (line (k • .some x y on) (.some x y on)) *
        Q.distance (.some x y on) (k + 1 : ℕ) := by
  have sum : k • .some x y on + .some x y on = (k + 1) • (.some x y on : (short a b).Point) :=
    (succ_nsmul _ k).symm
  have distinct := abscissa_nsmul_ne finite one_pos (m := k + 1) (by omega) (by omega)
  rw [one_nsmul] at distinct
  have upper := finite (k + 1) (by omega) (by omega)
  have rotated := Q.eval_line_add_neg (finite k positive (by omega)) (Point.some_ne_zero on)
    (sum ▸ upper) (sum ▸ distinct)
  have product := Q.eval_line_mul_neg (k • .some x y on) (.some x y on)
  have verticalP := Q.vertical_nsmul_ne_zero outside 1
  have verticalS := Q.vertical_nsmul_ne_zero outside (k + 1)
  rw [sum] at rotated product
  rw [one_nsmul] at verticalP
  have lines := Q.eval_line_mul_line_neg upper (Point.some_ne_zero on) distinct verticalS
  rw [rotated, abscissa_some] at lines
  rw [distance, natCast_zsmul, abscissa_some]
  apply mul_left_cancel₀ (mul_ne_zero verticalS verticalP)
  linear_combination Q.eval (line (k • .some x y on) (.some x y on)) * lines -
    Q.eval (line ((k + 1) • .some x y on) (.some x y on)) *
      (x - abscissa ((k + 1) • .some x y on : (short a b).Point)) * product

include nonzero

/-- One more term of the net, from the two before it. -/
theorem net_eq_chordProduct_step {k : ℕ} (bounded : k + 3 ≤ N)
    (before : Q.net (.some x y on) (k + 1 : ℕ) * Q.eval (vertical (.some x y on)) ^ (k + 1) =
      divisionValue a b x y (k + 1 : ℕ) * (Q.chordProduct (.some x y on) (k + 1) *
        Q.eval (vertical ((k + 1) • (.some x y on : (short a b).Point)))))
    (current : Q.net (.some x y on) (k + 2 : ℕ) * Q.eval (vertical (.some x y on)) ^ (k + 2) =
      divisionValue a b x y (k + 2 : ℕ) * (Q.chordProduct (.some x y on) (k + 2) *
        Q.eval (vertical ((k + 2) • (.some x y on : (short a b).Point))))) :
    Q.net (.some x y on) (k + 3 : ℕ) * Q.eval (vertical (.some x y on)) ^ (k + 3) =
      divisionValue a b x y (k + 3 : ℕ) * (Q.chordProduct (.some x y on) (k + 3) *
        Q.eval (vertical ((k + 3) • (.some x y on : (short a b).Point)))) := by
  have first : (.some x y on : (short a b).Point) ≠ 0 := Point.some_ne_zero on
  have middle : divisionValue a b x y (k + 3 : ℕ) * divisionValue a b x y (k + 1 : ℕ) =
      divisionValue a b x y (k + 2 : ℕ) ^ 2 *
        (x - abscissa ((k + 2) • .some x y on : (short a b).Point)) :=
    divisionValue_neighbours finite nonzero (n := k + 1) bounded
  have lines := eval_line_succ outside finite (k := k + 1) (by omega) bounded
  have neighbours := Q.net_neighbours outside first (k + 2 : ℕ)
  have last := Q.chordProduct_succ_mul outside (k + 2)
  have next := Q.chordProduct_succ_mul outside (k + 1)
  rw [show ((k + 2 : ℕ) : ℤ) + 1 = (k + 3 : ℕ) by omega,
    show ((k + 2 : ℕ) : ℤ) - 1 = (k + 1 : ℕ) by omega] at neighbours
  have factor : Q.net (.some x y on) (k + 1 : ℕ) * Q.eval (vertical (.some x y on)) ^ (k + 1) ≠ 0 := by
    have away := Q.vertical_nsmul_ne_zero outside 1
    rw [one_nsmul] at away
    exact mul_ne_zero (Q.net_ne_zero outside first _) (pow_ne_zero _ away)
  rw [last]
  apply mul_left_cancel₀ factor
  calc _ = Q.net (.some x y on) (k + 3 : ℕ) * Q.net (.some x y on) (k + 1 : ℕ) *
        (Q.eval (vertical (.some x y on)) ^ (k + 2)) ^ 2 := by ring
    _ = divisionValue a b x y (k + 2 : ℕ) ^ 2 * (Q.chordProduct (.some x y on) (k + 2) *
          Q.eval (vertical ((k + 2) • (.some x y on : (short a b).Point)))) ^ 2 *
          Q.distance (.some x y on) (k + 2 : ℕ) := by
        rw [neighbours]
        linear_combination Q.distance (.some x y on) (k + 2 : ℕ) *
          (Q.net (.some x y on) (k + 2 : ℕ) * Q.eval (vertical (.some x y on)) ^ (k + 2) +
            divisionValue a b x y (k + 2 : ℕ) * (Q.chordProduct (.some x y on) (k + 2) *
              Q.eval (vertical ((k + 2) • (.some x y on : (short a b).Point))))) * current
    _ = divisionValue a b x y (k + 2 : ℕ) ^ 2 * Q.chordProduct (.some x y on) (k + 1) *
          Q.chordProduct (.some x y on) (k + 2) *
          (Q.eval (vertical ((k + 2) • (.some x y on : (short a b).Point))) *
            Q.eval (line ((k + 1) • .some x y on) (.some x y on)) *
            Q.distance (.some x y on) (k + 2 : ℕ)) := by
        linear_combination divisionValue a b x y (k + 2 : ℕ) ^ 2 *
          Q.chordProduct (.some x y on) (k + 2) *
          Q.eval (vertical ((k + 2) • (.some x y on : (short a b).Point))) *
          Q.distance (.some x y on) (k + 2 : ℕ) * next
    _ = divisionValue a b x y (k + 3 : ℕ) * divisionValue a b x y (k + 1 : ℕ) *
          (Q.chordProduct (.some x y on) (k + 1) *
            Q.eval (vertical ((k + 1) • (.some x y on : (short a b).Point)))) *
          (Q.chordProduct (.some x y on) (k + 2) *
            Q.eval (line ((k + 2) • .some x y on) (.some x y on))) := by
        rw [middle, ← lines]
        ring
    _ = _ := by
        rw [before]
        ring

/-- Up to the bound the terms of the net are division polynomials times lines over verticals. -/
theorem net_eq_chordProduct (n : ℕ) (positive : 0 < n) (bounded : n ≤ N) :
    Q.net (.some x y on) n * Q.eval (vertical (.some x y on)) ^ n =
      divisionValue a b x y n * (Q.chordProduct (.some x y on) n *
        Q.eval (vertical (n • (.some x y on : (short a b).Point)))) := by
  have first : (.some x y on : (short a b).Point) ≠ 0 := Point.some_ne_zero on
  have one : divisionValue a b x y 1 = 1 := normEDS_one ..
  have two : divisionValue a b x y 2 = 2 * y := normEDS_two ..
  induction n using Nat.strong_induction_on with
  | _ n ih =>
    match n, positive with
    | 1, _ => rw [Nat.cast_one, net_one, one, Q.chordProduct_one outside, one_nsmul, pow_one, one_mul, one_mul]
    | 2, _ =>
      have axis : y ≠ -y := fun equal => nonzero (by linear_combination equal)
      have away := Q.vertical_nsmul_ne_zero outside 1
      rw [one_nsmul] at away
      have tangent := Q.eval_tangent on axis away
      have neighbours := Q.net_neighbours outside first 1
      have last := Q.chordProduct_succ_mul outside 1
      rw [one_add_one_eq_two, sub_self, net_zero, net_one, mul_one, one_pow, one_mul, distance,
        one_zsmul, abscissa_some] at neighbours
      rw [Q.chordProduct_one outside, one_mul, one_nsmul] at last
      rw [Nat.cast_ofNat, neighbours, two, last]
      linear_combination -tangent
    | k + 3, _ =>
      have before := ih (k + 1) (by omega) (by omega) (by omega)
      have current := ih (k + 2) (by omega) (by omega) (by omega)
      exact net_eq_chordProduct_step outside finite nonzero bounded before current

end Explicit

section Order

variable {Q} {x y : F} {on : (short a b).Nonsingular x y} {i : ℕ}
  (outside : ∀ k : ℤ, k • (.some x y on : (short a b).Point) ≠ Q.point)
  (finite : ∀ j, 0 < j → j ≤ 2 * i + 2 → j • (.some x y on : (short a b).Point) ≠ 0)
  (order : (2 * i + 3) • (.some x y on : (short a b).Point) = 0) (large : 2 ≤ i)
  (nonzero : 2 * y ≠ 0)

include finite order large in
/-- The two multiples that add up to the first point have distinct abscissas. -/
private theorem abscissa_beyond_ne :
    abscissa ((i + 1) • .some x y on : (short a b).Point) ≠
      abscissa ((i + 3) • .some x y on : (short a b).Point) := by
  apply abscissa_ne (finite (i + 1) (by omega) (by omega)) (finite (i + 3) (by omega) (by omega))
  · rw [← add_nsmul, show i + 1 + (i + 3) = 2 * i + 3 + 1 by omega, succ_nsmul, order, zero_add]
    exact Point.some_ne_zero on
  · have split : (i + 3) • .some x y on =
        (i + 1) • (.some x y on : (short a b).Point) + 2 • .some x y on := by rw [← add_nsmul]
    rw [split, sub_add_cancel_left]
    exact neg_ne_zero.mpr (finite 2 two_pos (by omega))

include finite nonzero large in
/-- The division polynomial beyond the order. -/
private theorem divisionValue_beyond :
    divisionValue a b x y (2 * i + 4 : ℕ) * (2 * y) =
      divisionValue a b x y (i + 3 : ℕ) ^ 2 * divisionValue a b x y (i + 1 : ℕ) ^ 2 *
        (abscissa ((i + 1) • .some x y on : (short a b).Point) -
          abscissa ((i + 3) • .some x y on : (short a b).Point)) := by
  have recurrence := divisionValue_even (a := a) (b := b) x y (i + 2 : ℕ)
  have upper : divisionValue a b x y (i + 4 : ℕ) * divisionValue a b x y (i + 2 : ℕ) = _ :=
    divisionValue_neighbours finite nonzero (n := i + 2) (by omega)
  have lower := divisionValue_neighbours finite nonzero (n := i) (by omega)
  rw [show 2 * ((i + 2 : ℕ) : ℤ) = (2 * i + 4 : ℕ) by omega,
    show ((i + 2 : ℕ) : ℤ) - 1 = (i + 1 : ℕ) by omega, show ((i + 2 : ℕ) : ℤ) - 2 = (i : ℕ) by omega,
    show ((i + 2 : ℕ) : ℤ) + 1 = (i + 3 : ℕ) by omega,
    show ((i + 2 : ℕ) : ℤ) + 2 = (i + 4 : ℕ) by omega] at recurrence
  rw [recurrence]
  linear_combination divisionValue a b x y (i + 1 : ℕ) ^ 2 * upper -
    divisionValue a b x y (i + 3 : ℕ) ^ 2 * lower

include finite order large nonzero in
theorem divisionValue_beyond_ne_zero : divisionValue a b x y (2 * i + 4 : ℕ) ≠ 0 := by
  have product := divisionValue_beyond finite large nonzero
  have distinct := sub_ne_zero.mpr (abscissa_beyond_ne finite order large)
  have factors := mul_ne_zero
    (pow_ne_zero 2 (divisionValue_ne_zero finite nonzero (n := i + 3) (by omega) (by omega)))
    (pow_ne_zero 2 (divisionValue_ne_zero finite nonzero (n := i + 1) (by omega) (by omega)))
  exact left_ne_zero_of_mul (product ▸ mul_ne_zero factors distinct)

include outside nonzero in
/-- The term of the difference of the second point and twice the first one. -/
theorem net_neg_two :
    Q.net (.some x y on) (-2) = -(2 * y) * Q.eval (line (-.some x y on) (-.some x y on)) := by
  obtain ⟨on', negated⟩ := neg_point on
  have axis : -y ≠ - -y := fun equal => nonzero (by linear_combination -equal)
  have away := Q.avoids_of_outside outside (-1)
  rw [neg_zsmul, one_zsmul, negated] at away
  have tangent := Q.eval_tangent on' axis away
  have neighbours := Q.net_neighbours outside (Point.some_ne_zero on) (-1)
  have first : Q.distance (.some x y on) 0 = x - Q.x := by
    rw [distance, zero_zsmul, zero_add]
    rfl
  rw [neg_add_cancel, net_zero, one_mul, net_neg_one, first, distance, neg_zsmul, one_zsmul, negated,
    abscissa_some] at neighbours
  rw [negated]
  rw [eval_vertical_some] at tangent
  refine neighbours.trans ?_
  linear_combination -tangent

include outside finite order large nonzero in
/-- The term beyond the order, by the two lines from the multiple below the half. -/
private theorem net_beyond_lines :
    Q.net (.some x y on) (2 * i + 4 : ℕ) * Q.eval (line (-.some x y on) (-.some x y on)) *
        (Q.eval (vertical (.some x y on)) ^ (i + 1)) ^ 2 *
        Q.eval (vertical ((i + 3) • (.some x y on : (short a b).Point))) =
      divisionValue a b x y (2 * i + 4 : ℕ) * Q.chordProduct (.some x y on) (i + 1) ^ 2 *
        (Q.eval (line ((i + 1) • .some x y on) ((i + 3) • .some x y on)) *
          Q.eval (line ((i + 1) • .some x y on) (-((i + 3) • .some x y on)))) := by
  have beyond := divisionValue_beyond finite large nonzero
  have distinct := abscissa_beyond_ne finite order large
  have product := net_mul outside finite nonzero (i + 1 : ℕ) (i + 3) (by omega) (by omega)
  have middle := net_eq_chordProduct outside finite nonzero (i + 1) (by omega) (by omega)
  have awayA := Q.vertical_nsmul_ne_zero outside (i + 1)
  rw [show ((i + 1 : ℕ) : ℤ) + (i + 3 : ℕ) = (2 * i + 4 : ℕ) by omega,
    show ((i + 1 : ℕ) : ℤ) - (i + 3 : ℕ) = -2 by omega, net_neg_two outside nonzero,
    natCast_zsmul] at product
  have lines := Q.eval_line_mul_line_neg (finite (i + 1) (by omega) (by omega))
    (finite (i + 3) (by omega) (by omega)) distinct awayA
  apply mul_left_cancel₀ (mul_ne_zero nonzero (pow_ne_zero 2 awayA))
  generalize Q.eval (vertical (.some x y on)) ^ (i + 1) = v at middle ⊢
  generalize Q.net (.some x y on) (i + 1 : ℕ) = n at middle product
  linear_combination (-Q.eval (vertical ((i + 1) • (.some x y on : (short a b).Point))) ^ 2 *
      Q.eval (vertical ((i + 3) • (.some x y on : (short a b).Point))) * v ^ 2) * product +
    v ^ 2 * n ^ 2 * divisionValue a b x y (i + 3 : ℕ) ^ 2 * lines -
    divisionValue a b x y (i + 3 : ℕ) ^ 2 *
      (Q.eval (line ((i + 1) • .some x y on) ((i + 3) • .some x y on)) *
        Q.eval (line ((i + 1) • .some x y on) (-((i + 3) • .some x y on)))) *
      (abscissa ((i + 3) • .some x y on : (short a b).Point) -
        abscissa ((i + 1) • .some x y on : (short a b).Point)) *
      (n * v + divisionValue a b x y (i + 1 : ℕ) * (Q.chordProduct (.some x y on) (i + 1) *
        Q.eval (vertical ((i + 1) • (.some x y on : (short a b).Point))))) * middle -
    Q.chordProduct (.some x y on) (i + 1) ^ 2 *
      Q.eval (vertical ((i + 1) • (.some x y on : (short a b).Point))) ^ 2 *
      (Q.eval (line ((i + 1) • .some x y on) ((i + 3) • .some x y on)) *
        Q.eval (line ((i + 1) • .some x y on) (-((i + 3) • .some x y on)))) * beyond

include outside finite order large nonzero in
/-- The term beyond the order, by the chords from the multiple below the half. -/
private theorem net_beyond :
    Q.net (.some x y on) (2 * i + 4 : ℕ) * Q.eval (vertical (.some x y on)) ^ (2 * i + 3) *
        Q.eval (vertical ((i + 3) • (.some x y on : (short a b).Point))) =
      divisionValue a b x y (2 * i + 4 : ℕ) * (Q.chordProduct (.some x y on) (i + 1) ^ 2 *
        Q.chord (.some x y on) (.some x y on) *
        Q.chord ((i + 1) • .some x y on) ((i + 3) • .some x y on)) *
        Q.eval (line ((i + 1) • .some x y on) (-((i + 3) • .some x y on))) := by
  have cleared := net_beyond_lines outside finite order large nonzero
  have opposite := Q.eval_line_mul_neg (.some x y on) (.some x y on)
  have awayP := Q.vertical_nsmul_ne_zero outside 1
  have awayD := Q.vertical_nsmul_ne_zero outside 2
  rw [one_nsmul] at awayP
  rw [two_nsmul] at awayD
  have sum : (i + 1) • .some x y on + (i + 3) • .some x y on =
      (.some x y on : (short a b).Point) := by
    rw [← add_nsmul, show i + 1 + (i + 3) = 2 * i + 3 + 1 by omega, succ_nsmul, order, zero_add]
  have chords : Q.chord (.some x y on) (.some x y on) *
        Q.chord ((i + 1) • .some x y on) ((i + 3) • .some x y on) *
        (Q.eval (vertical (.some x y on + .some x y on)) * Q.eval (vertical (.some x y on))) =
      Q.eval (line (.some x y on) (.some x y on)) *
        Q.eval (line ((i + 1) • .some x y on) ((i + 3) • .some x y on)) := by
    rw [chord, chord, sum, div_mul_div_comm, div_mul_cancel₀ _ (mul_ne_zero awayD awayP)]
  apply mul_right_cancel₀ (mul_ne_zero awayD awayP)
  rw [show 2 * i + 3 = (i + 1) * 2 + 1 by omega, pow_succ, pow_mul]
  linear_combination Q.eval (line (.some x y on) (.some x y on)) * cleared -
    Q.net (.some x y on) (2 * i + 4 : ℕ) * (Q.eval (vertical (.some x y on)) ^ (i + 1)) ^ 2 *
      Q.eval (vertical ((i + 3) • (.some x y on : (short a b).Point))) * opposite -
    divisionValue a b x y (2 * i + 4 : ℕ) * Q.chordProduct (.some x y on) (i + 1) ^ 2 *
      Q.eval (line ((i + 1) • .some x y on) (-((i + 3) • .some x y on))) * chords

variable {M : Type*} [CommGroup M] (symbol : ResidueSymbol F M (2 * i + 3))

include finite order large nonzero in
/-- The term beyond the order, over its division polynomial, has the symbol of the lines along
the order. -/
theorem of_net_beyond :
    symbol.of (Q.net (.some x y on) (2 * i + 4 : ℕ) / divisionValue a b x y (2 * i + 4 : ℕ)) =
      (Q.cocycle symbol (Q.avoids_of_outside outside)).power 1 (2 * i + 3) := by
  have beyond := congrArg symbol.of (net_beyond outside finite order large nonzero)
  have terms := Q.net_ne_zero outside (Point.some_ne_zero on) (2 * i + 4 : ℕ)
  have divisions := divisionValue_beyond_ne_zero finite order large nonzero
  have products := pow_ne_zero 2 (Q.chordProduct_ne_zero outside (i + 1))
  have away := Q.vertical_nsmul_ne_zero outside
  have awayP := away 1
  rw [one_nsmul] at awayP
  have avoids := Q.avoids_of_outside outside
  have chordP := Q.chord_ne_zero avoids 1 1
  have chordA := Q.chord_ne_zero avoids (i + 1 : ℕ) (i + 3 : ℕ)
  have third := Q.of_line_neg symbol avoids (i + 1 : ℕ) 2
  rw [Q.of_line symbol avoids _ 2, show ((i + 1 : ℕ) : ℤ) + 2 = (i + 3 : ℕ) by omega, neg_zsmul,
    natCast_zsmul, natCast_zsmul] at third
  have line : Q.eval (line ((i + 1) • .some x y on) (-((i + 3) • .some x y on))) ≠ 0 := by
    have general := Q.eval_line_ne_zero avoids (i + 1 : ℕ) (-(i + 3 : ℕ))
    rwa [neg_zsmul, natCast_zsmul, natCast_zsmul] at general
  have first := Q.cocycle_value symbol avoids 1 1
  have second := Q.cocycle_value symbol avoids (i + 1 : ℕ) (i + 3 : ℕ)
  rw [one_zsmul] at chordP first
  rw [natCast_zsmul, natCast_zsmul] at chordA second
  rw [symbol.of_mul (mul_ne_zero terms (pow_ne_zero _ awayP)) (away (i + 3)),
    symbol.of_mul terms (pow_ne_zero _ awayP), symbol.of_pow (Q.eval (vertical (.some x y on))),
    symbol.of_root, mul_one,
    symbol.of_mul (mul_ne_zero divisions (mul_ne_zero (mul_ne_zero products chordP) chordA)) line,
    symbol.of_mul divisions (mul_ne_zero (mul_ne_zero products chordP) chordA),
    symbol.of_mul (mul_ne_zero products chordP) chordA, symbol.of_mul products chordP,
    symbol.of_pow, Q.of_chordProduct outside, third, ← first, ← second] at beyond
  have last : (Q.cocycle symbol avoids).power 1 (2 * i + 3 + 1) =
      (Q.cocycle symbol avoids).power 1 (2 * i + 3) := by
    rw [Cocycle.power_succ, nsmul_one, cocycle_value, natCast_zsmul, order, one_zsmul, chord,
      line_zero_left, zero_add, div_self awayP, symbol.of_one, mul_one]
  have double : (Q.cocycle symbol avoids).power 1 2 = (Q.cocycle symbol avoids).value 1 1 := by
    rw [Cocycle.power_succ, Cocycle.power_one, one_mul, one_nsmul]
  have upper := (Q.cocycle symbol avoids).power_add 1 (i + 1) 2
  have whole := (Q.cocycle symbol avoids).power_add 1 (i + 1) (i + 3)
  rw [double, nsmul_one, nsmul_one, Nat.cast_ofNat] at upper
  rw [show i + 1 + (i + 3) = 2 * i + 3 + 1 by omega, last, nsmul_one, nsmul_one] at whole
  rw [symbol.of_div terms divisions, whole, mul_inv_eq_iff_eq_mul]
  apply mul_right_cancel (b := symbol.of (Q.eval (vertical ((i + 3) • (.some x y on : (short a b).Point)))))
  rw [beyond, show i + 3 = i + 1 + 2 from rfl, upper, sq]
  ac_rfl

end Order

end FinitePoint

end Pbc.Elliptic
