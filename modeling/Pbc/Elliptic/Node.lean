import Mathlib.AlgebraicGeometry.EllipticCurve.Affine.Basic
import Mathlib.Tactic.FieldSimp
import Mathlib.Tactic.LinearCombination
import Pbc.Algebra.Numerals

/-!
# The cubic with a node

The points of `y^2 = x^3 + x^2` other than the node lie on one line through the node each. The
slopes of the lines turn the chords and the tangents into the multiplication of nonzero numbers:
the number `a` belongs to the slope `(a + 1) / (a - 1)`, and one belongs to the point at infinity.
-/

open WeierstrassCurve.Affine

namespace Pbc.Elliptic

/-- The curve `y^2 = x^3 + x^2`. -/
def nodeCurve (F : Type*) [CommRing F] : WeierstrassCurve.Affine F := ⟨0, 1, 0, 0, 0⟩

section Numbers

variable {F : Type*} [Field F]

/-- The slope of the line from the node to the point of a number. -/
def nodeSlope (a : F) : F := (a + 1) / (a - 1)

/-- The abscissa of the point of a number. -/
def nodeX (a : F) : F := nodeSlope a ^ 2 - 1

/-- The ordinate of the point of a number. -/
def nodeY (a : F) : F := nodeSlope a * nodeX a

variable {a b : F}

theorem nodeX_eq (finite : a ≠ 1) : nodeX a = 4 * a / (a - 1) ^ 2 := by
  have denominator := sub_ne_zero.mpr finite
  rw [nodeX, nodeSlope]
  field_simp
  ring

theorem nodeY_eq (finite : a ≠ 1) : nodeY a = 4 * a * (a + 1) / (a - 1) ^ 3 := by
  have denominator := sub_ne_zero.mpr finite
  rw [nodeY, nodeX_eq finite, nodeSlope]
  field_simp

variable (two : (2 : F) ≠ 0)

include two

theorem four_ne_zero_of_two : (4 : F) ≠ 0 := by
  have square : (4 : F) = 2 * 2 := by norm_num
  rw [square]
  exact mul_ne_zero two two

theorem nodeX_ne_zero (nonzero : a ≠ 0) (finite : a ≠ 1) : nodeX a ≠ 0 := by
  rw [nodeX_eq finite]
  exact div_ne_zero (mul_ne_zero (four_ne_zero_of_two two) nonzero)
    (pow_ne_zero _ (sub_ne_zero.mpr finite))

/-- The points of the curve, apart from the node. -/
theorem nodeCurve_nonsingular_iff {x y : F} :
    (nodeCurve F).Nonsingular x y ↔ y ^ 2 = x ^ 3 + x ^ 2 ∧ x ≠ 0 := by
  rw [nonsingular_iff, equation_iff]
  simp only [nodeCurve, zero_mul, add_zero, one_mul, sub_zero]
  refine and_congr_right ?_
  intro on
  constructor
  · rintro smooth rfl
    have zero : y = 0 := by
      refine pow_eq_zero_iff two_ne_zero |>.mp ?_
      rw [on]
      ring
    subst zero
    rcases smooth with slope | vertical
    · exact slope (by ring)
    · exact vertical (by ring)
  · intro nonzero
    by_cases zero : y = 0
    · left
      have root : x = -1 := by
        have product : x ^ 2 * (x + 1) = 0 := by
          rw [zero] at on
          linear_combination -on
        exact eq_neg_of_add_eq_zero_left
          ((mul_eq_zero.mp product).resolve_left (pow_ne_zero _ nonzero))
      rw [root]
      norm_num
    · right
      intro same
      refine mul_ne_zero two zero ?_
      linear_combination same

theorem nodePoint_nonsingular (nonzero : a ≠ 0) (finite : a ≠ 1) :
    (nodeCurve F).Nonsingular (nodeX a) (nodeY a) := by
  refine (nodeCurve_nonsingular_iff two).mpr ⟨?_, nodeX_ne_zero two nonzero finite⟩
  rw [nodeY, nodeX]
  ring

/-- Only the number minus one has a point with a vertical tangent. -/
theorem nodeY_eq_zero_iff (nonzero : a ≠ 0) (finite : a ≠ 1) : nodeY a = 0 ↔ a * a = 1 := by
  have abscissa := nodeX_ne_zero two nonzero finite
  rw [nodeY, mul_eq_zero, or_iff_left abscissa, nodeSlope, div_eq_zero_iff,
    or_iff_left (sub_ne_zero.mpr finite), mul_self_eq_one_iff, or_iff_right finite]
  exact add_eq_zero_iff_eq_neg

/-- The number of a point. -/
theorem nodePoint_number (nonzero : a ≠ 0) (finite : a ≠ 1) :
    nodeY a - nodeX a ≠ 0 ∧ (nodeY a + nodeX a) * (nodeY a - nodeX a)⁻¹ = a := by
  have denominator := sub_ne_zero.mpr finite
  have abscissa := nodeX_ne_zero two nonzero finite
  have difference : nodeY a - nodeX a = nodeX a * (2 / (a - 1)) := by
    rw [nodeY, nodeSlope]
    field_simp
    ring
  have sum : nodeY a + nodeX a = nodeX a * (2 * a / (a - 1)) := by
    rw [nodeY, nodeSlope]
    field_simp
    ring
  rw [difference, sum]
  refine ⟨mul_ne_zero abscissa (div_ne_zero two denominator), ?_⟩
  field_simp

/-- Every point has a number. -/
theorem exists_nodePoint {x y : F} (on : (nodeCurve F).Nonsingular x y) :
    ∃ a, a ≠ 0 ∧ a ≠ 1 ∧ x = nodeX a ∧ y = nodeY a := by
  obtain ⟨equation, nonzero⟩ := (nodeCurve_nonsingular_iff two).mp on
  have product : (y - x) * (y + x) = x ^ 3 := by linear_combination equation
  have cube : x ^ 3 ≠ 0 := pow_ne_zero _ nonzero
  have minus : y - x ≠ 0 := left_ne_zero_of_mul (product ▸ cube)
  have plus : y + x ≠ 0 := right_ne_zero_of_mul (product ▸ cube)
  have finite : (y + x) / (y - x) ≠ 1 := by
    rw [Ne, div_eq_one_iff_eq minus]
    intro same
    refine mul_ne_zero two nonzero ?_
    linear_combination same
  have slope : nodeSlope ((y + x) / (y - x)) = y / x := by
    have denominator : (y + x) / (y - x) - 1 = 2 * x / (y - x) := by
      field_simp
      ring
    rw [nodeSlope, denominator]
    field_simp
    ring
  have abscissa : x = nodeX ((y + x) / (y - x)) := by
    rw [nodeX, slope, div_pow, equation]
    field_simp
    ring
  refine ⟨(y + x) / (y - x), div_ne_zero plus minus, finite, abscissa, ?_⟩
  rw [nodeY, slope, ← abscissa]
  field_simp

end Numbers

section Law

variable {F : Type*} [Field F] {a b : F}

/-- The point of the inverse. -/
theorem nodeSlope_inv (nonzero : a ≠ 0) (finite : a ≠ 1) : nodeSlope a⁻¹ = -nodeSlope a := by
  have denominator := sub_ne_zero.mpr finite
  have denominator' : 1 - a ≠ 0 := sub_ne_zero.mpr (Ne.symm finite)
  rw [nodeSlope, nodeSlope]
  field_simp
  ring

theorem nodeX_inv (nonzero : a ≠ 0) (finite : a ≠ 1) : nodeX a⁻¹ = nodeX a := by
  rw [nodeX, nodeSlope_inv nonzero finite, neg_sq]
  rfl

theorem nodeY_inv (nonzero : a ≠ 0) (finite : a ≠ 1) : nodeY a⁻¹ = -nodeY a := by
  rw [nodeY, nodeSlope_inv nonzero finite, nodeX_inv nonzero finite, neg_mul]
  rfl

variable (finite : a ≠ 1) (finite' : b ≠ 1)

include finite finite'

theorem nodeSlope_add : nodeSlope a + nodeSlope b = 2 * (a * b - 1) / ((a - 1) * (b - 1)) := by
  have denominator := sub_ne_zero.mpr finite
  have denominator' := sub_ne_zero.mpr finite'
  rw [nodeSlope, nodeSlope]
  field_simp
  ring

theorem nodeSlope_sub : nodeSlope a - nodeSlope b = 2 * (b - a) / ((a - 1) * (b - 1)) := by
  have denominator := sub_ne_zero.mpr finite
  have denominator' := sub_ne_zero.mpr finite'
  rw [nodeSlope, nodeSlope]
  field_simp
  ring

variable (two : (2 : F) ≠ 0)

include two

/-- Two points have one abscissa exactly if they are equal or opposite. -/
theorem nodeX_eq_iff : nodeX a = nodeX b ↔ a = b ∨ a * b = 1 := by
  have denominators : (a - 1) * (b - 1) ≠ 0 :=
    mul_ne_zero (sub_ne_zero.mpr finite) (sub_ne_zero.mpr finite')
  have difference : nodeX a - nodeX b =
      4 * (b - a) * (a * b - 1) / ((a - 1) * (b - 1)) ^ 2 := by
    have product : nodeX a - nodeX b =
        (nodeSlope a - nodeSlope b) * (nodeSlope a + nodeSlope b) := by
      rw [nodeX, nodeX]
      ring
    rw [product, nodeSlope_sub finite finite', nodeSlope_add finite finite', div_mul_div_comm]
    ring
  rw [← sub_eq_zero, difference, div_eq_zero_iff, or_iff_left (pow_ne_zero 2 denominators),
    mul_eq_zero, mul_eq_zero, or_iff_right (four_ne_zero_of_two two), sub_eq_zero, sub_eq_zero,
    eq_comm (a := b)]

theorem nodeSlope_add_ne_zero (other : a * b ≠ 1) : nodeSlope a + nodeSlope b ≠ 0 := by
  rw [nodeSlope_add finite finite']
  exact div_ne_zero (mul_ne_zero two (sub_ne_zero.mpr other))
    (mul_ne_zero (sub_ne_zero.mpr finite) (sub_ne_zero.mpr finite'))

/-- The slope of a product. -/
theorem nodeSlope_mul (other : a * b ≠ 1) :
    nodeSlope (a * b) = (1 + nodeSlope a * nodeSlope b) / (nodeSlope a + nodeSlope b) := by
  have denominator := sub_ne_zero.mpr finite
  have denominator' := sub_ne_zero.mpr finite'
  have denominator'' := sub_ne_zero.mpr other
  rw [nodeSlope_add finite finite', nodeSlope, nodeSlope, nodeSlope]
  field_simp
  ring

/-- The chord through two points that are neither equal nor opposite. -/
theorem node_chord (distinct : a ≠ b) (other : a * b ≠ 1) : nodeX b - nodeX a ≠ 0 ∧
      (nodeY b - nodeY a) * (nodeX b - nodeX a)⁻¹ * (nodeSlope a + nodeSlope b) =
        nodeSlope a ^ 2 + nodeSlope a * nodeSlope b + nodeSlope b ^ 2 - 1 := by
  have apart : nodeX b - nodeX a ≠ 0 := by
    rw [sub_ne_zero, Ne, nodeX_eq_iff finite' finite two, mul_comm b]
    rintro (same | one)
    · exact distinct same.symm
    · exact other one
  refine ⟨apart, ?_⟩
  have abscissas : nodeX b - nodeX a =
      (nodeSlope b - nodeSlope a) * (nodeSlope a + nodeSlope b) := by
    rw [nodeX, nodeX]
    ring
  have ordinates : nodeY b - nodeY a = (nodeSlope b - nodeSlope a) *
      (nodeSlope a ^ 2 + nodeSlope a * nodeSlope b + nodeSlope b ^ 2 - 1) := by
    rw [nodeY, nodeY, nodeX, nodeX]
    ring
  rw [abscissas] at apart ⊢
  have difference := left_ne_zero_of_mul apart
  have sum := right_ne_zero_of_mul apart
  rw [ordinates]
  field_simp

/-- The third point of a line, whose slope is `l` and whose two other points are those of
`a` and `b`. -/
theorem nodePoint_mul (other : a * b ≠ 1) {l : F}
    (slope : l * (nodeSlope a + nodeSlope b) =
      nodeSlope a ^ 2 + nodeSlope a * nodeSlope b + nodeSlope b ^ 2 - 1) :
    l ^ 2 - nodeX a - nodeX b - 1 = nodeX (a * b) ∧
      (nodeX a - nodeX (a * b)) * l - nodeY a = nodeY (a * b) := by
  have sum := nodeSlope_add_ne_zero finite finite' two other
  have line : l = (nodeSlope a ^ 2 + nodeSlope a * nodeSlope b + nodeSlope b ^ 2 - 1) /
      (nodeSlope a + nodeSlope b) := by
    rw [eq_div_iff sum, slope]
  simp only [nodeY, nodeX, nodeSlope_mul finite finite' two other, line]
  constructor
  · field_simp
    ring
  · field_simp
    ring

end Law

/-- The slope of the tangent at a point that is not its own opposite. -/
theorem node_tangent {F : Type*} [Field F] {a : F} (two : (2 : F) ≠ 0) (nonzero : a ≠ 0)
    (finite : a ≠ 1) (ordinate : nodeY a ≠ 0) :
    (3 • nodeX a + 2) * nodeX a * (nodeY a + nodeY a)⁻¹ * (nodeSlope a + nodeSlope a) =
      nodeSlope a ^ 2 + nodeSlope a * nodeSlope a + nodeSlope a ^ 2 - 1 := by
  have slope : nodeSlope a ≠ 0 := left_ne_zero_of_mul ordinate
  have abscissa := nodeX_ne_zero two nonzero finite
  have expanded : 3 • nodeX a + 2 = 3 * nodeSlope a ^ 2 - 1 := by
    rw [nsmul_eq_mul, nodeX]
    push_cast
    ring
  have denominator : nodeY a + nodeY a = 2 * nodeSlope a * nodeX a := by
    rw [nodeY]
    ring
  rw [expanded, denominator]
  field_simp
  ring

end Pbc.Elliptic
