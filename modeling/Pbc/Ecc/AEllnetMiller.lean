import Pbc.Ecc.EllnetBlock
import Pbc.Elliptic.Net

/-!
# The elliptic net and the Miller loop

The block holds division polynomials at the first point, and the terms beside it are
those of the net at the distorted second point. After the last bit the upper one is, up
to scalars of `F_q`, the product of the lines of a Miller loop, so both methods return
one element.
-/

open Pbc.Arith Pbc.Gmp Pbc.Algebra Pbc.Elliptic Pbc.Number WeierstrassCurve.Affine

namespace Pbc.Ecc

section Block

variable {F : Type*} [Field F] [FpMethods F]

/-- The block at `k` holds the division polynomials at the point. -/
structure EllnetBlock.At (c : EllnetBlock F) (x y : F) (k : ℤ) : Prop where
  cm3 : c.cm3 = divisionValue 1 0 x y (k - 3)
  cm2 : c.cm2 = divisionValue 1 0 x y (k - 2)
  cm1 : c.cm1 = divisionValue 1 0 x y (k - 1)
  c0 : c.c0 = divisionValue 1 0 x y k
  c1 : c.c1 = divisionValue 1 0 x y (k + 1)
  c2 : c.c2 = divisionValue 1 0 x y (k + 2)
  c3 : c.c3 = divisionValue 1 0 x y (k + 3)
  c4 : c.c4 = divisionValue 1 0 x y (k + 4)

omit [FpMethods F] in
/-- It is the block of the curve with coefficients one and zero. -/
theorem EllnetBlock.at_iff_holds (c : EllnetBlock F) (x y : F) (k : ℤ) :
    c.At x y k ↔ c.Holds 1 0 x y k := by
  constructor
  · rintro ⟨cm3, cm2, cm1, c0, c1, c2, c3, c4⟩
    exact ⟨cm3, cm2, cm1, c0, c1, c2, c3, c4⟩
  · rintro ⟨cm3, cm2, cm1, c0, c1, c2, c3, c4⟩
    exact ⟨cm3, cm2, cm1, c0, c1, c2, c3, c4⟩

/-- The bits of a number above `m + 1` are followed by those above `m`. -/
theorem ellnetTurn_at {c : EllnetBlock F} {x y C : F} (inverse : C * (2 * y) = 1) {r m : ℕ}
    (holds : c.At x y (r >>> (m + 1) : ℕ)) :
    (ellnetTurn r C m (ellnetTerms c)).At x y (r >>> m : ℕ) := by
  rw [EllnetBlock.at_iff_holds] at holds ⊢
  exact ellnetTurn_shiftRight inverse holds

/-- The first block is the one at `k = 1`. -/
theorem ellnetBlock_at {x y : F} (nonzero : 2 * y ≠ 0) :
    (ellnetBlock x y).1.At x y 1 ∧ (ellnetBlock x y).2 * (2 * y) = 1 := by
  have zero : divisionValue 1 0 x y 0 = 0 := normEDS_zero ..
  have one : divisionValue 1 0 x y 1 = 1 := normEDS_one ..
  have two : divisionValue 1 0 x y 2 = 2 * y := normEDS_two ..
  have three : divisionValue 1 0 x y 3 = 3 * x ^ 4 + 6 * 1 * x ^ 2 + 12 * 0 * x - 1 ^ 2 :=
    normEDS_three ..
  have four : divisionValue 1 0 x y 4 = _ * (2 * y) := normEDS_four ..
  have five := divisionValue_odd (a := (1 : F)) (b := 0) x y 2
  have opposite (n : ℤ) : divisionValue 1 0 x y (-n) = -divisionValue 1 0 x y n := normEDS_neg ..
  norm_num at five
  rw [one, two, three, four] at five
  refine ⟨⟨?_, ?_, ?_, ?_, ?_, ?_, ?_, ?_⟩, ?_⟩
  · rw [show (1 : ℤ) - 3 = -2 by decide, opposite, two]
    simp only [ellnetBlock, FieldMethods.double_eq]
    ring
  · rw [show (1 : ℤ) - 2 = -1 by decide, opposite, one]
    rfl
  · exact zero.symm
  · exact one.symm
  · rw [one_add_one_eq_two, two, two_mul]
    exact FieldMethods.double_eq y
  · rw [show (1 : ℤ) + 2 = 3 by decide, three]
    simp only [ellnetBlock, FieldMethods.double_eq, FieldMethods.square_eq]
    ring
  · rw [show (1 : ℤ) + 3 = 4 by decide, four]
    simp only [ellnetBlock, FieldMethods.double_eq, FieldMethods.square_eq]
    ring
  · rw [show (1 : ℤ) + 4 = 5 by decide, five]
    simp only [ellnetBlock, FieldMethods.double_eq, FieldMethods.square_eq]
    ring
  · have double : FieldMethods.double y = 2 * y := by rw [FieldMethods.double_eq, two_mul]
    simp only [ellnetBlock, double, zpInvert_eq nonzero]
    exact inv_mul_cancel₀ nonzero

end Block

section Values

variable {F : Type*} [Field F] [DecidableEq F] [FpMethods F]
  [nonsquare : Fact (∀ r : F, r ^ 2 ≠ -1 + 0 * r)] {x y x2 y2 : F}
  {on : (short (1 : F) 0).Nonsingular x y} (on2 : (short (1 : F) 0).Nonsingular x2 y2)
  (axis2 : y2 ≠ 0)

omit [DecidableEq F] [FpMethods F] in
include on2 axis2 in
/-- The first factor inverts the distance of the abscissas. -/
private theorem add_x_ne_zero (on : (short (1 : F) 0).Nonsingular x y) : x + x2 ≠ 0 := by
  intro zero
  apply (distort on2 axis2).x_ne on
  rw [Algebra.algebraMap_self, RingHom.id_apply, distort_x]
  linear_combination -zero

omit [DecidableEq F] [FpMethods F] in
/-- The distance to the abscissa of the sum, and to that of the difference. -/
private theorem sub_sumAbscissa_distort (on : (short (1 : F) 0).Nonsingular x y) :
    algebraMap F (FiData F) x - (distort on2 axis2).sumAbscissa (.some x y on) =
      algebraMap F _ (x + x - x2) - (⟨-(y * (x + x2)⁻¹), y2 * (x + x2)⁻¹⟩ : FiData F) ^ 2 := by
  have inverse : (distort on2 axis2).x - algebraMap F F x = -(x + x2) := by
    rw [Algebra.algebraMap_self, RingHom.id_apply, distort_x]
    ring
  rw [TwistPoint.sumAbscissa, inverse, inv_neg]
  generalize (x + x2)⁻¹ = w
  ext
  · simp [pow_succ]
    ring
  · simp [pow_succ]

/-- The first values are those of the net, and the factors are its corrections. -/
theorem ellnetValues_net (two : (2 : F) ≠ 0) (double : (.some x y on + .some x y on :
    (short (1 : F) 0).Point) ≠ 0) :
    (ellnetValues x y x2 y2).1 * (algebraMap F F x - (distort on2 axis2).x) = 1 ∧
      (ellnetValues x y x2 y2).2.1 *
          (algebraMap F _ x - (distort on2 axis2).sumAbscissa (-.some x y on)) =
        algebraMap F _ (ellnetValues x y x2 y2).1 ^ 2 ∧
      (distort on2 axis2).NetAt (.some x y on) 1 (ellnetValues x y x2 y2).2.2.dm1
        (ellnetValues x y x2 y2).2.2.d0 (ellnetValues x y x2 y2).2.2.d1 := by
  have apart := add_x_ne_zero on2 axis2 on
  have first : (ellnetValues x y x2 y2).1 = (x + x2)⁻¹ := zpInvert_eq apart
  have opposite := short_nonsingular_neg on
  have negated := short_neg_some on
  refine ⟨?_, ?_, ?_⟩
  · rw [first, Algebra.algebraMap_self, RingHom.id_apply, distort_x, sub_neg_eq_add]
    exact inv_mul_cancel₀ apart
  · have nonzero : algebraMap F (FiData F) x -
        (distort on2 axis2).sumAbscissa (-.some x y on) ≠ 0 := by
      refine ((distort on2 axis2).sub_sumAbscissa_class two (A := -.some x y on)
        (B := .some x y on) (neg_ne_zero.mpr (Point.some_ne_zero on)) (Point.some_ne_zero on) ?_).1
      rw [← neg_add]
      exact neg_ne_zero.mpr double
    have distance : algebraMap F (FiData F) x - (distort on2 axis2).sumAbscissa (-.some x y on) =
        (algebraMap F _ ((x + x - x2) * (x + x2) ^ 2) - ⟨y, y2⟩ ^ 2) *
          algebraMap F _ (x + x2)⁻¹ ^ 2 := by
      rw [negated, sub_sumAbscissa_distort on2 axis2 opposite]
      have cancel : (x + x2) ^ 2 * (x + x2)⁻¹ ^ 2 = 1 := by
        rw [← mul_pow, mul_inv_cancel₀ apart, one_pow]
      generalize (x + x2)⁻¹ = w at cancel ⊢
      ext
      · simp [pow_succ]
        linear_combination (x2 - x - x) * cancel
      · simp [pow_succ]
        ring
    have divisor : (ellnetValues x y x2 y2).2.1 =
        (algebraMap F (FiData F) ((x + x - x2) * (x + x2) ^ 2) - ⟨y, y2⟩ ^ 2)⁻¹ := by
      rw [distance] at nonzero
      rw [← fiInvert_eq (left_ne_zero_of_mul nonzero)]
      refine congrArg fiInvert ?_
      simp only [fiSquare_eq, FieldMethods.double_eq, FieldMethods.square_eq]
      ext
      · simp [pow_succ]
      · simp [pow_succ]
    rw [distance] at nonzero
    rw [distance, divisor, first, ← mul_assoc, inv_mul_cancel₀ (left_ne_zero_of_mul nonzero),
      one_mul]
  · have third : (ellnetValues x y x2 y2).2.2.d1 =
        algebraMap F _ x - (distort on2 axis2).sumAbscissa (.some x y on) := by
      rw [sub_sumAbscissa_distort on2 axis2 on]
      simp only [ellnetValues, fiSquare_eq, FieldMethods.double_eq, zpInvert_eq apart]
      ext
      · simp [pow_succ]
      · simp [pow_succ]
    rw [third]
    exact TwistPoint.NetAt.one two (Point.some_ne_zero on) double

end Values

section Loop

variable {F : Type*} [Field F] [DecidableEq F] [FpMethods F]
  [nonsquare : Fact (∀ r : F, r ^ 2 ≠ -1 + 0 * r)] {x y : F}
  {on : (short (1 : F) 0).Nonsingular x y} {Q : TwistPoint (1 : F) 0 (-1 : F)}

omit [DecidableEq F] [FpMethods F] nonsquare in
private theorem scale_eq (u : FiData F) (c : F) :
    (⟨u.re * c, u.im * c⟩ : FiData F) = u * algebraMap F _ c := by
  ext
  · simp
  · simp

/-- One bit of the order moves the terms beside the block along with it. -/
theorem ellnetTurnValues_net {N : ℕ}
    (finite : ∀ j, 0 < j → j ≤ N → j • (.some x y on : (short (1 : F) 0).Point) ≠ 0)
    (nonzero : 2 * y ≠ 0) {A : F} {B : FiData F} (inverse : A * (algebraMap F F x - Q.x) = 1)
    (value : B * (algebraMap F _ x - Q.sumAbscissa (-.some x y on)) = algebraMap F _ A ^ 2)
    {k : ℕ} (positive : 0 < k) (bounded : k + 3 ≤ N) (whole : 2 * k ≤ N) {c : EllnetBlock F}
    {d : EllnetValues F} (block : c.At x y k) (net : Q.NetAt (.some x y on) k d.dm1 d.d0 d.d1)
    (r m : ℕ) :
    Q.NetAt (.some x y on) (2 * k + (r.testBit m).toNat)
      (ellnetTurnValues r A B m (ellnetTerms c).toEllnetPpSt d).dm1
      (ellnetTurnValues r A B m (ellnetTerms c).toEllnetPpSt d).d0
      (ellnetTurnValues r A B m (ellnetTerms c).toEllnetPpSt d).d1 := by
  cases bit : r.testBit m with
  | true =>
    rw [ellnetTurnValues, if_pos (show mpzTstbit r m = true from bit)]
    have step := net.doubleAdd finite nonzero inverse positive bounded whole value
    simp only [ellnetDoubleAddValues, ellnetTerms, scale_eq, fiSquare_eq, fiMul_eq,
      FieldMethods.square_eq, ← sq, block.cm2, block.cm1, block.c0, block.c1, block.c2, block.c3]
    exact step
  | false =>
    rw [ellnetTurnValues, if_neg (show ¬mpzTstbit r m = true by rw [mpzTstbit, bit]; decide)]
    have step := net.double finite nonzero inverse positive (by omega) whole
    simp only [ellnetDoubleValues, ellnetTerms, scale_eq, fiSquare_eq, fiMul_eq,
      FieldMethods.square_eq, ← sq, block.cm2, block.cm1, block.c0, block.c1, block.c2]
    exact step

/-- The loop reaches the terms of the net at the order. -/
theorem aPairingEllnetLoop_net {r : ℕ} (odd : Odd r) (large : 7 ≤ r)
    (order : addOrderOf (.some x y on : (short (1 : F) 0).Point) = r) (nonzero : 2 * y ≠ 0)
    {A C : F} {B : FiData F} (inverseC : C * (2 * y) = 1)
    (inverse : A * (algebraMap F F x - Q.x) = 1)
    (value : B * (algebraMap F _ x - Q.sumAbscissa (-.some x y on)) = algebraMap F _ A ^ 2)
    (m : ℕ) (inside : m < r.log2) {c : EllnetBlock F} {d : EllnetValues F}
    (block : c.At x y (r >>> (m + 1) : ℕ))
    (net : Q.NetAt (.some x y on) (r >>> (m + 1)) d.dm1 d.d0 d.d1) :
    Q.NetAt (.some x y on) r (aPairingEllnetLoop r A C B m c d).2.dm1
      (aPairingEllnetLoop r A C B m c d).2.d0 (aPairingEllnetLoop r A C B m c d).2.d1 := by
  have finite (j : ℕ) (positive : 0 < j) (below : j ≤ r - 1) :
      j • (.some x y on : (short (1 : F) 0).Point) ≠ 0 :=
    nsmul_ne_zero order (Nat.not_dvd_of_pos_of_lt positive (by omega))
  induction m generalizing c d with
  | zero =>
    obtain ⟨positive, half⟩ := shiftRight_succ_bounds odd inside
    have step := ellnetTurnValues_net finite nonzero inverse value positive (by omega) (by omega)
      block net r 0
    rw [← shiftRight_eq_append] at step
    exact step
  | succ m ih =>
    obtain ⟨positive, half⟩ := shiftRight_succ_bounds odd inside
    have step := ellnetTurnValues_net finite nonzero inverse value positive (by omega) (by omega)
      block net r (m + 1)
    rw [← shiftRight_eq_append] at step
    exact ih (by omega) (ellnetTurn_at inverseC block) step

end Loop

section Agreement

variable {F : Type*} [Field F] [Fintype F] [DecidableEq F] [FpMethods F]

omit [Fintype F] in
/-- The value that the elliptic net hands to the final powering. -/
theorem aPairingEllnet_eq [nonsquare : Fact (∀ r : F, r ^ 2 ≠ -1 + 0 * r)] (two : (2 : F) ≠ 0)
    {param : AParam} (odd : Odd param.r) (large : 7 ≤ param.r) {P : (short (1 : F) 0).Point}
    (order : addOrderOf P = param.r) {in1 : PointS F} (represents : in1.Represents P) {x2 y2 : F}
    (on2 : (short (1 : F) 0).Nonsingular x2 y2) (axis2 : y2 ≠ 0) :
    ∃ v, aPairingEllnet (pairingInitAParam param) in1 ⟨false, x2, y2⟩ = aTateexp v param.h ∧
      (distort on2 axis2).Accumulates P param.r v := by
  have single := exists_nsmul_eq_some odd order one_pos (by omega)
  obtain ⟨x, y, on, point, axis⟩ := single
  rw [one_nsmul] at point
  subst point
  rw [PointS.represents_some_iff] at represents
  subst represents
  have nonzero : 2 * y ≠ 0 := mul_ne_zero two axis
  have double : (.some x y on + .some x y on : (short (1 : F) 0).Point) ≠ 0 := by
    rw [← two_nsmul]
    exact nsmul_ne_zero order (Nat.not_dvd_of_pos_of_lt two_pos (by omega))
  obtain ⟨block, inverseC⟩ := ellnetBlock_at (x := x) nonzero
  obtain ⟨inverse, value, net⟩ := @ellnetValues_net F _ _ _ _ x y x2 y2 on on2 axis2 two double
  have positive : 0 < param.r.log2 := log2_pos_of_two_le (by omega)
  have top : param.r >>> (param.r.log2 - 1 + 1) = 1 := by
    rw [Nat.sub_add_cancel positive]
    exact shiftRight_log2 (by omega)
  have run := aPairingEllnetLoop_net odd large order nonzero inverseC inverse value
    (param.r.log2 - 1) (by omega) (by rw [top]; exact block) (by rw [top]; exact net)
  exact ⟨_, rfl, run.next.beyond (addOrderOf_nsmul_self order)⟩

/-- The two values of the option `method` return one element. -/
theorem aPairingEllnet_eq_affine (param : AParam) (card : Fintype.card F = param.q)
    (valid : param.Valid) (ordered : param.exp1 < param.exp2) {P : (short (1 : F) 0).Point}
    (order : addOrderOf P = param.r) {in1 : PointS F} (represents : in1.Represents P) {x y : F}
    (on : (short (1 : F) 0).Nonsingular x y) (axis : y ≠ 0) :
    aPairingAffine (pairingInitAParam param) in1 ⟨false, x, y⟩ =
      .ok (aPairingEllnet (pairingInitAParam param) in1 ⟨false, x, y⟩) := by
  have residue : Fintype.card F % 4 = 3 := by
    rw [card]
    exact valid.residue
  have nonsquare : Fact (∀ r : F, r ^ 2 ≠ -1 + 0 * r) := ⟨sq_ne_neg_one residue⟩
  have two := two_ne_zero_of_residue residue
  obtain ⟨v, affine, accumulates⟩ := aPairingAffine_ok two valid ordered order represents on axis
  obtain ⟨w, ellnet, accumulates'⟩ :=
    aPairingEllnet_eq two valid.odd valid.large order represents on axis
  rw [affine, ellnet, aTateexp_congr card valid accumulates accumulates']

/-- Both methods on two points of order seven. -/
theorem aPairingEllnet_eq_affine_small :
    aPairingAffine (pairingInitAParam smallA) (⟨false, 29, 4⟩ : PointS (ZMod 83))
        ⟨false, 49, 2⟩ =
      .ok (aPairingEllnet (pairingInitAParam smallA) ⟨false, 29, 4⟩ ⟨false, 49, 2⟩) :=
  aPairingEllnet_eq_affine smallA (ZMod.card 83) smallA_valid (by decide) addOrderOf_smallAPoint
    smallAPoint_represents smallAOther_nonsingular (by decide)

end Agreement

end Pbc.Ecc
