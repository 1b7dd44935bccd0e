import Pbc.Ecc.AEllnet
import Pbc.Elliptic.Division

/-!
# Blocks of division polynomials

Eight neighbouring terms of the division sequence at a point give the eight terms around
twice their index, and around twice their index and one. A loop that reads the bits of a
number from the top so moves a block along, on a curve `y^2 = x^3 + a x + b`.
-/

open Pbc.Arith Pbc.Gmp Pbc.Elliptic Pbc.Number

namespace Pbc.Ecc

variable {F : Type*} [Field F] [FpMethods F]

/-- The block at `k = 1` on a curve with general coefficients, and the inverse of `c_2`. -/
def ellnetBlockAb (a b x y : F) : EllnetBlock F × F :=
  let c1 := FieldMethods.double y
  let cm3 := -c1
  let cm2 := FieldMethods.square x
  let C := FieldMethods.square cm2
  let cm1 := b * x
  let cm1 := FieldMethods.double cm1
  let c4 := FieldMethods.square a
  let c2 := cm1 * cm2
  let c2 := FieldMethods.double c2
  let c0 := a * C
  let c2 := c2 + c0
  let c0 := c4 * cm2
  let c2 := c2 - c0
  let c0 := FieldMethods.double c2
  let c0 := FieldMethods.double c0
  let c2 := c2 + c0
  let c0 := cm1 * a
  let c3 := FieldMethods.square b
  let c3 := FieldMethods.double c3
  let c3 := FieldMethods.double c3
  let c0 := c0 + c3
  let c0 := FieldMethods.double c0
  let c3 := a * c4
  let c0 := c0 + c3
  let c2 := c2 - c0
  let c0 := cm2 * C
  let c3 := c0 + c2
  let c3 := c3 * c1
  let c3 := FieldMethods.double c3
  let c0 := a * cm2
  let c0 := c0 + cm1
  let c0 := FieldMethods.double c0
  let c0 := c0 + C
  let c2 := FieldMethods.double c0
  let c0 := c0 + c2
  let c2 := c0 - c4
  let c0 := 1
  let cm2 := -c0
  let C := FieldMethods.square c1
  let c4 := C * c1
  let c4 := c4 * c3
  let C := FieldMethods.square c2
  let C := C * c2
  let c4 := c4 - C
  let cm1 := 0
  let C := zpInvert c1
  (⟨cm3, cm2, cm1, c0, c1, c2, c3, c4⟩, C)

omit [FpMethods F] in
/-- The block at `k` holds the division polynomials at the point. -/
structure EllnetBlock.Holds (c : EllnetBlock F) (a b x y : F) (k : ℤ) : Prop where
  cm3 : c.cm3 = divisionValue a b x y (k - 3)
  cm2 : c.cm2 = divisionValue a b x y (k - 2)
  cm1 : c.cm1 = divisionValue a b x y (k - 1)
  c0 : c.c0 = divisionValue a b x y k
  c1 : c.c1 = divisionValue a b x y (k + 1)
  c2 : c.c2 = divisionValue a b x y (k + 2)
  c3 : c.c3 = divisionValue a b x y (k + 3)
  c4 : c.c4 = divisionValue a b x y (k + 4)

section Terms

variable {a b x y C : F}

omit [FpMethods F] in
/-- A difference of products of four neighbours gives the term of odd index between. -/
private theorem division_of_odd {h i j k n : ℤ} (above : i = h + 1) (next : j = h + 2)
    (last : k = h + 3) (index : n = 2 * h + 3) :
    divisionValue a b x y i * divisionValue a b x y k * divisionValue a b x y i ^ 2 -
        divisionValue a b x y h * divisionValue a b x y j * divisionValue a b x y j ^ 2 =
      divisionValue a b x y n := by
  have recurrence := divisionValue_odd (a := a) (b := b) x y (h + 1)
  rw [show h + 1 - 1 = h by omega, show h + 1 + 1 = j by omega, show h + 1 + 2 = k by omega,
    show 2 * (h + 1) + 1 = n by omega, ← above] at recurrence
  rw [recurrence]
  ring

omit [FpMethods F] in
/-- So do five neighbours for the term of even index, after a division by the second. -/
private theorem division_of_even (inverse : C * (2 * y) = 1) {g h i j k n : ℤ}
    (above : h = g + 1) (middle : i = g + 2) (next : j = g + 3) (last : k = g + 4)
    (index : n = 2 * g + 4) :
    (divisionValue a b x y i * divisionValue a b x y k * divisionValue a b x y h ^ 2 -
        divisionValue a b x y g * divisionValue a b x y i * divisionValue a b x y j ^ 2) * C =
      divisionValue a b x y n := by
  have recurrence := divisionValue_even (a := a) (b := b) x y (g + 2)
  rw [show g + 2 - 1 = h by omega, show g + 2 - 2 = g by omega, show g + 2 + 1 = j by omega,
    show g + 2 + 2 = k by omega, show 2 * (g + 2) = n by omega, ← middle] at recurrence
  linear_combination divisionValue a b x y n * inverse - C * recurrence

end Terms

section Turn

variable {a b x y C : F} {c : EllnetBlock F} {k : ℤ}

/-- The branch "double-and-add" moves the block to `2 k + 1`. -/
theorem ellnetDoubleAdd_holds (inverse : C * (2 * y) = 1) (holds : c.Holds a b x y k) :
    (ellnetDoubleAdd C (ellnetTerms c)).Holds a b x y (2 * k + 1) := by
  constructor <;> simp only [ellnetDoubleAdd, ellnetTerms, FieldMethods.square_eq, ← sq,
    holds.cm3, holds.cm2, holds.cm1, holds.c0, holds.c1, holds.c2, holds.c3, holds.c4]
  · exact division_of_even inverse (by omega) (by omega) (by omega) (by omega) (by omega)
  · exact division_of_odd (by omega) (by omega) (by omega) (by omega)
  · exact division_of_even inverse (by omega) (by omega) (by omega) (by omega) (by omega)
  · exact division_of_odd (by omega) (by omega) (by omega) (by omega)
  · exact division_of_even inverse (by omega) (by omega) (by omega) (by omega) (by omega)
  · exact division_of_odd (by omega) (by omega) (by omega) (by omega)
  · exact division_of_even inverse (by omega) (by omega) (by omega) (by omega) (by omega)
  · exact division_of_odd (by omega) (by omega) (by omega) (by omega)

/-- The branch "double" moves it to `2 k`. -/
theorem ellnetDouble_holds (inverse : C * (2 * y) = 1) (holds : c.Holds a b x y k) :
    (ellnetDouble C (ellnetTerms c)).Holds a b x y (2 * k) := by
  constructor <;> simp only [ellnetDouble, ellnetTerms, FieldMethods.square_eq, ← sq,
    holds.cm3, holds.cm2, holds.cm1, holds.c0, holds.c1, holds.c2, holds.c3, holds.c4]
  · exact division_of_odd (by omega) (by omega) (by omega) (by omega)
  · exact division_of_even inverse (by omega) (by omega) (by omega) (by omega) (by omega)
  · exact division_of_odd (by omega) (by omega) (by omega) (by omega)
  · exact division_of_even inverse (by omega) (by omega) (by omega) (by omega) (by omega)
  · exact division_of_odd (by omega) (by omega) (by omega) (by omega)
  · exact division_of_even inverse (by omega) (by omega) (by omega) (by omega) (by omega)
  · exact division_of_odd (by omega) (by omega) (by omega) (by omega)
  · exact division_of_even inverse (by omega) (by omega) (by omega) (by omega) (by omega)

/-- Either branch moves it by one bit. -/
theorem ellnetTurn_holds (inverse : C * (2 * y) = 1) (holds : c.Holds a b x y k) (r m : ℕ) :
    (ellnetTurn r C m (ellnetTerms c)).Holds a b x y (2 * k + (r.testBit m).toNat) := by
  cases bit : r.testBit m with
  | true =>
    have taken : mpzTstbit r m = true := bit
    rw [ellnetTurn, if_pos taken]
    exact ellnetDoubleAdd_holds inverse holds
  | false =>
    have skipped : mpzTstbit r m = false := bit
    rw [ellnetTurn, skipped, if_neg Bool.false_ne_true, Bool.toNat_false, Nat.cast_zero, add_zero]
    exact ellnetDouble_holds inverse holds

/-- The bits of a number above `m + 1` are followed by those above `m`. -/
theorem ellnetTurn_shiftRight (inverse : C * (2 * y) = 1) {r m : ℕ}
    (holds : c.Holds a b x y (r >>> (m + 1) : ℕ)) :
    (ellnetTurn r C m (ellnetTerms c)).Holds a b x y (r >>> m : ℕ) := by
  rw [shiftRight_eq_append r m]
  push_cast
  exact ellnetTurn_holds inverse holds r m

/-- The first block is the one at `k = 1`. -/
theorem ellnetBlockAb_holds (a b x : F) {y : F} (nonzero : 2 * y ≠ 0) :
    (ellnetBlockAb a b x y).1.Holds a b x y 1 ∧ (ellnetBlockAb a b x y).2 * (2 * y) = 1 := by
  have zero : divisionValue a b x y 0 = 0 := normEDS_zero ..
  have one : divisionValue a b x y 1 = 1 := normEDS_one ..
  have two : divisionValue a b x y 2 = 2 * y := normEDS_two ..
  have three : divisionValue a b x y 3 = 3 * x ^ 4 + 6 * a * x ^ 2 + 12 * b * x - a ^ 2 :=
    normEDS_three ..
  have four : divisionValue a b x y 4 = _ * (2 * y) := normEDS_four ..
  have five : divisionValue a b x y 5 = _ := divisionValue_odd (a := a) (b := b) x y 2
  have opposite (n : ℤ) : divisionValue a b x y (-n) = -divisionValue a b x y n := normEDS_neg ..
  have c1 : (ellnetBlockAb a b x y).1.c1 = divisionValue a b x y 2 := by
    rw [two, two_mul]
    exact FieldMethods.double_eq y
  have c2 : (ellnetBlockAb a b x y).1.c2 = divisionValue a b x y 3 := by
    rw [three]
    simp only [ellnetBlockAb, FieldMethods.double_eq, FieldMethods.square_eq]
    ring
  have c3 : (ellnetBlockAb a b x y).1.c3 = divisionValue a b x y 4 := by
    rw [four]
    simp only [ellnetBlockAb, FieldMethods.double_eq, FieldMethods.square_eq]
    ring
  -- the last term is made from the three before it, as in the recurrence
  have c4 : (ellnetBlockAb a b x y).1.c4 = divisionValue a b x y 5 := by
    change FieldMethods.square (ellnetBlockAb a b x y).1.c1 * (ellnetBlockAb a b x y).1.c1 *
        (ellnetBlockAb a b x y).1.c3 - FieldMethods.square (ellnetBlockAb a b x y).1.c2 *
          (ellnetBlockAb a b x y).1.c2 = _
    rw [c1, c2, c3, FieldMethods.square_eq, FieldMethods.square_eq, five,
      show (2 : ℤ) + 2 = 4 by decide, show (2 : ℤ) - 1 = 1 by decide,
      show (2 : ℤ) + 1 = 3 by decide, one]
    ring
  constructor
  · constructor
    · rw [show (1 : ℤ) - 3 = -2 by decide, opposite, ← c1]
      rfl
    · rw [show (1 : ℤ) - 2 = -1 by decide, opposite, one]
      rfl
    · exact zero.symm
    · exact one.symm
    · exact c1
    · exact c2
    · exact c3
    · exact c4
  · have double : FieldMethods.double y = 2 * y := by rw [FieldMethods.double_eq, two_mul]
    simp only [ellnetBlockAb, double, zpInvert_eq nonzero]
    exact inv_mul_cancel₀ nonzero

end Turn

end Pbc.Ecc
