import Pbc.Ecc.ATable
import Pbc.Ecc.CurveRuns
import Pbc.Elliptic.Tate

/-!
# Bilinearity of the type A pairing

The Jacobian run reads the coordinates of its arguments and not the flag of `O`. An object that
`curve_set1` has turned into `O` keeps the coordinates of its last finite point. The pairing is
bilinear on the elements of every reachable state whose coordinates stand for the element: finite
points, and representations of `O` whose values under the flag make every line a scalar.
-/

open Pbc.Algebra Pbc.Arith Pbc.Gmp Pbc.Number Pbc.Elliptic

namespace Pbc.Ecc

section Scalars

variable {F : Type*} [Field F] [FpMethods F]

/-- The ladder at zero walks through the powers of `i`. -/
theorem lucasOdd_zero (two : (2 : F) ≠ 0) {h : ℕ} (four : 4 ∣ h) : lucasOdd (0 : FiData F) h = 1 := by
  obtain ⟨k, rfl⟩ := four
  let i : FiData F := ⟨0, 1⟩
  let j : FiData F := ⟨0, -1⟩
  have inverse : i * j = 1 := by
    ext <;> simp [i, j, QuadraticAlgebra.re_one, QuadraticAlgebra.im_one]
  have trace : algebraMap F (FiData F) (0 + 0) = i + j := by
    ext <;> simp [i, j]
  have exponent : 2 * (4 * k) >>> 1 = 4 * k := by
    rw [Nat.shiftRight_one]
    omega
  have term : lucasV i j (4 * k) = 1 + 1 := by
    have fourth : i ^ 4 = 1 ∧ j ^ 4 = 1 := by
      constructor <;> ext <;> simp [i, j, pow_succ, QuadraticAlgebra.re_one, QuadraticAlgebra.im_one]
    rw [lucasV, pow_mul, pow_mul, fourth.1, fourth.2, one_pow]
  obtain ⟨low, -⟩ := lucasLoop_start (algebraMap F (FiData F)) inverse trace (4 * k)
  rw [exponent, term] at low
  have value := congrArg QuadraticAlgebra.re low
  rw [QuadraticAlgebra.algebraMap_re, QuadraticAlgebra.re_add, QuadraticAlgebra.re_one,
    one_add_one_eq_two] at value
  ext
  · simp only [lucasOdd, QuadraticAlgebra.re_zero, value, zpHalve_eq two]
    exact div_self two
  · simp only [lucasOdd, QuadraticAlgebra.im_zero, QuadraticAlgebra.im_one, mul_zero]

variable [Fintype F] {param : AParam}

/-- The cofactor is a multiple of four. -/
theorem AParam.Valid.four_dvd (valid : param.Valid) : 4 ∣ param.h := by
  have residue := valid.residue
  have product : 4 ∣ param.r * param.h := by
    rw [valid.cofactor]
    omega
  have coprime : Nat.Coprime 4 param.r := by
    have odd := Nat.coprime_two_left.mpr valid.odd
    exact Nat.Coprime.mul_left odd odd
  exact coprime.dvd_of_dvd_mul_left product

/-- The final powering sends every scalar to one, and zero as well. -/
theorem aTateexp_scalar (card : Fintype.card F = param.q) (valid : param.Valid) {f : FiData F}
    (scalar : f.im = 0) : aTateexp f param.h = 1 := by
  have residue : Fintype.card F % 4 = 3 := by
    rw [card]
    exact valid.residue
  have nonsquare : Fact (∀ r : F, r ^ 2 ≠ -1 + 0 * r) := ⟨sq_ne_neg_one residue⟩
  by_cases zero : f = 0
  · subst zero
    rw [aTateexp, fiMul_eq]
    have conjugate : (⟨(0 : FiData F).re, -(0 : FiData F).im⟩ : FiData F) = 0 := by
      ext <;> simp
    rw [conjugate, zero_mul, lucasOdd_zero (two_ne_zero_of_residue residue) valid.four_dvd]
  · have embedded : f = algebraMap F (FiData F) f.re := by
      ext
      · simp
      · simpa using scalar
    rw [aTateexp_eq_powHom card valid zero, embedded, ScalarClass.of_algebraMap, map_one,
      Units.val_one]

end Scalars

section Flat

variable {F : Type*} [Field F] [DecidableEq F] [FpMethods F]

/-- Coordinates at which every tangent is a scalar: those of a new object, and those that a doubling of
such coordinates leaves. -/
def ProjState.Flat (s : ProjState F) : Prop := (s.Z.x = 0 ∧ s.Z.y = 0) ∨ s.z = 0

omit [DecidableEq F] in
theorem ProjState.Flat.double {s : ProjState F} (flat : s.Flat) : (aProjDouble s).Flat := by
  right
  simp only [aProjDouble, FieldMethods.double_eq]
  rcases flat with ⟨-, y⟩ | z
  · rw [y, zero_mul, add_zero]
  · rw [z, mul_zero, add_zero]

omit [DecidableEq F] [FpMethods F] in
/-- The value of a line at a point of the axis is a scalar. -/
theorem aMillerEvalfn_axis (line : PpCoeff F) (Qx : F) : (aMillerEvalfn line Qx 0).im = 0 := by
  simp only [aMillerEvalfn, mul_zero]

omit [DecidableEq F] in
theorem ProjState.Flat.tangent {s : ProjState F} (flat : s.Flat) (Qx Qy : F) :
    (aMillerEvalfn (computeAbcTangentProj s) Qx Qy).im = 0 := by
  simp only [aMillerEvalfn, computeAbcTangentProj, FieldMethods.double_eq]
  rcases flat with ⟨-, y⟩ | z
  · rw [y]
    ring
  · rw [z]
    ring

omit [DecidableEq F] [FpMethods F] in
theorem fiMul_scalar {f g : FiData F} (left : f.im = 0) (right : g.im = 0) : (fiMul f g).im = 0 := by
  rw [fiMul_eq, QuadraticAlgebra.im_mul, left, right]
  ring

omit [DecidableEq F] in
/-- The loops keep to scalars. -/
theorem aPairingProjLoop_scalar {Qx Qy : F} (n : ℕ) {s s' : ProjState F} {f f' : FiData F}
    (flat : Qy = 0 ∨ s.Flat) (scalar : f.im = 0)
    (run : aPairingProjLoop Qx Qy n s f = (s', f')) : (Qy = 0 ∨ s'.Flat) ∧ f'.im = 0 := by
  induction n generalizing s f with
  | zero =>
    obtain ⟨rfl, rfl⟩ := Prod.mk.inj run
    exact ⟨flat, scalar⟩
  | succ n ih =>
    refine ih (flat.imp_right ProjState.Flat.double) (fiMul_scalar ?_ ?_) run
    · rw [fiSquare_eq, ← fiMul_eq]
      exact fiMul_scalar scalar scalar
    · rcases flat with rfl | flat
      · exact aMillerEvalfn_axis _ _
      · exact flat.tangent Qx Qy

omit [DecidableEq F] in
/-- Where zero is inverted to zero, `point_to_affine` takes flat coordinates to zero. -/
theorem ProjState.Flat.affine (inverse : zpInvert (0 : F) = 0) {s : ProjState F} (flat : s.Flat) :
    (pointToAffine s).Z.x = 0 ∧ (pointToAffine s).Z.y = 0 := by
  simp only [pointToAffine, FieldMethods.square_eq]
  rcases flat with ⟨x, y⟩ | z
  · simp [x, y]
  · simp [z, inverse]

omit [DecidableEq F] in
/-- `n` turns keep the flag. -/
theorem aPairingProjLoop_infFlag {Qx Qy : F} (n : ℕ) {s s' : ProjState F} {f f' : FiData F}
    (run : aPairingProjLoop Qx Qy n s f = (s', f')) : s'.Z.infFlag = s.Z.infFlag := by
  induction n generalizing s f with
  | zero =>
    obtain ⟨rfl, rfl⟩ := Prod.mk.inj run
    rfl
  | succ n ih =>
    have rest := ih run
    exact rest

end Flat

section Values

variable {F : Type*} [Field F] [DecidableEq F] [FpMethods F] [Fintype F] {param : AParam}
  (card : Fintype.card F = param.q) (valid : param.Valid) {in1 in2 : PointS F}

include card valid

omit [DecidableEq F] in
/-- The pairing is one when every line is a scalar: at a second argument with ordinate zero, and for
`O` as the first one where zero is inverted to zero. -/
theorem aPairingProj_scalar
    (reads : in2.y = 0 ∨ in1.infFlag = true ∧ zpInvert (0 : F) = 0) :
    aPairingProj (pairingInitAParam param) in1 in2 = 1 := by
  have start : in2.y = 0 ∨ ProjState.Flat ⟨curveSet curveInit in1, 1, 1⟩ := by
    refine reads.imp_right fun reads => .inl ?_
    rw [curveSet, if_pos reads.1]
    exact ⟨rfl, rfl⟩
  rcases first : aPairingProjLoop in2.x in2.y param.exp1 ⟨curveSet curveInit in1, 1, 1⟩ 1
    with ⟨s₁, f₁⟩
  obtain ⟨flat₁, scalar₁⟩ := aPairingProjLoop_scalar _ start QuadraticAlgebra.im_one first
  have affine (s : ProjState F) (flat : in2.y = 0 ∨ s.Flat) :
      in2.y = 0 ∨ (pointToAffine s).Z.x = 0 ∧ (pointToAffine s).Z.y = 0 := by
    rcases reads with axis | ⟨-, inverse⟩
    · exact .inl axis
    · exact flat.imp_right (ProjState.Flat.affine inverse)
  have affine₁ := affine s₁ flat₁
  rcases second : aPairingProjLoop in2.x in2.y (param.exp2 - param.exp1) (pointToAffine s₁) f₁
    with ⟨s₂, f₂⟩
  obtain ⟨flat₂, scalar₂⟩ := aPairingProjLoop_scalar _ (affine₁.imp_right .inl) scalar₁ second
  have affine₂ := affine s₂ flat₂
  simp only [aPairingProj, pairingInitAParam, first, second]
  apply aTateexp_scalar card valid
  refine fiMul_scalar (fiMul_scalar scalar₂ ?_) ?_
  · split
    · simp only [fiInvert, scalar₁, zero_mul]
    · exact scalar₁
  · rcases affine₁ with axis | ⟨x₁, -⟩
    · rw [axis]
      exact aMillerEvalfn_axis _ _
    rcases affine₂ with axis | ⟨x₂, -⟩
    · rw [axis]
      exact aMillerEvalfn_axis _ _
    have last (V : PointS F) (x : V.x = 0) : (curveInvert curveInit V).x = 0 ∧
        (curveSet curveInit V).x = 0 := by
      constructor
      · rw [curveInvert]
        split
        · rfl
        · exact x
      · rw [curveSet]
        split
        · rfl
        · exact x
    simp only [aMillerEvalfn, computeAbcLine, x₂, sub_zero]
    split
    · rw [(last _ x₁).1, zero_mul]
    · rw [(last _ x₁).2, zero_mul]

omit [DecidableEq F] in
/-- When the last two powers of two do not ascend, the last line at a finite point is zero. -/
theorem aPairingProj_short (short : param.exp2 ≤ param.exp1) (finite : in1.infFlag = false) :
    aPairingProj (pairingInitAParam param) in1 in2 = 1 := by
  have positive : ¬param.sign1 < 0 := by
    have form := valid.form
    have large := valid.large
    have powers : (2 : ℤ) ^ param.exp2 ≤ 2 ^ param.exp1 := pow_le_pow_right₀ (by norm_num) short
    rcases valid.sign1 with sign | sign
    · rw [sign]
      decide
    · rw [sign] at form
      rcases valid.sign0 with last | last <;> omega
  rcases first : aPairingProjLoop in2.x in2.y param.exp1 ⟨curveSet curveInit in1, 1, 1⟩ 1
    with ⟨s₁, f₁⟩
  have flag : (pointToAffine s₁).Z.infFlag = false := by
    have kept := aPairingProjLoop_infFlag _ first
    rw [curveSet, if_neg (ne_true_of_eq_false finite)] at kept
    exact kept
  have again : pointToAffine (pointToAffine s₁) = pointToAffine s₁ := by
    simp [pointToAffine, zpInvert_eq, FieldMethods.square_eq]
  have line : aMillerEvalfn (computeAbcLine (pointToAffine s₁).Z
      (curveSet curveInit (pointToAffine s₁).Z)) in2.x in2.y = 0 := by
    rw [curveSet, if_neg (ne_true_of_eq_false flag)]
    ext <;> simp [aMillerEvalfn, computeAbcLine, mul_comm]
  simp only [aPairingProj, pairingInitAParam, first, Nat.sub_eq_zero_of_le short, aPairingProjLoop,
    again, if_neg positive, line]
  apply aTateexp_scalar card valid
  rw [fiMul_eq, mul_zero, QuadraticAlgebra.im_zero]

/-- The coordinates of a first argument that stand for it: those of a finite point, and any where zero
is inverted to zero. -/
def FirstReads (in1 : PointS F) : Prop := in1.infFlag = false ∨ zpInvert (0 : F) = 0

/-- The coordinates of a second argument that stand for it: those of a finite point, and under `O`
those with ordinate zero. -/
def SecondReads (param : AParam) (in2 : PointS F) : Prop :=
  in2.infFlag = false ∨ in2.y = 0 ∨ param.exp2 ≤ param.exp1

omit [DecidableEq F] in
/-- The pairing with `O` is one. -/
theorem aPairingProj_zero_left (infinite : in1.infFlag = true) (first : FirstReads in1) :
    aPairingProj (pairingInitAParam param) in1 in2 = 1 := by
  have inverse := first.resolve_left (ne_false_of_eq_true infinite)
  exact aPairingProj_scalar card valid (.inr ⟨infinite, inverse⟩)

omit [DecidableEq F] in
theorem aPairingProj_zero_right (ordered : param.exp1 < param.exp2) (infinite : in2.infFlag = true)
    (second : SecondReads param in2) : aPairingProj (pairingInitAParam param) in1 in2 = 1 := by
  have axis := (second.resolve_left (ne_false_of_eq_true infinite)).resolve_right ordered.not_ge
  exact aPairingProj_scalar card valid (.inl axis)

omit [DecidableEq F] in
/-- When the last two powers of two do not ascend, the pairing is one at every second argument. -/
theorem aPairingProj_of_short (short : param.exp2 ≤ param.exp1) (first : FirstReads in1) :
    aPairingProj (pairingInitAParam param) in1 in2 = 1 := by
  cases flag : in1.infFlag with
  | false => exact aPairingProj_short card valid short flag
  | true => exact aPairingProj_zero_left card valid flag first

/-- The pairing is the reduced product of the lines along the multiples of the first point. -/
theorem aPairingProj_eq_tate (ordered : param.exp1 < param.exp2)
    {P : (short (1 : F) 0).Point} (orderP : param.r • P = 0) (represents1 : in1.Represents P)
    {Q : (twistCurve (1 : F) 0 (-1 : F)).Point} (orderQ : param.r • Q = 0)
    (represents2 : in2.Represents Q) (first : FirstReads in1) (second : SecondReads param in2)
    [Fact (∀ r : F, r ^ 2 ≠ -1 + 0 * r)] :
    aPairingProj (pairingInitAParam param) in1 in2 =
      ScalarClass.powHom _ (scalar_pow_unitary (F := F) param.h) (tate param.r P Q) := by
  have residue : Fintype.card F % 4 = 3 := by
    rw [card]
    exact valid.residue
  cases P with
  | zero =>
    have trivial : tate param.r (0 : (short (1 : F) 0).Point) Q = 1 := by
      cases Q with
      | zero => rfl
      | some x y on =>
        rw [tate_some _ _ on (offAxis_of_odd valid.odd orderQ), Cocycle.zero_power]
    rw [aPairingProj_zero_left card valid represents1 first]
    exact (congrArg Units.val ((congrArg _ trivial).trans (map_one _))).symm
  | some x₁ y₁ on₁ =>
    cases Q with
    | zero =>
      rw [aPairingProj_zero_right card valid ordered represents2 second]
      exact (congrArg Units.val (map_one _)).symm
    | some x y on =>
      have axis : y ≠ 0 := offAxis_of_odd valid.odd orderQ
      have curve : twistCurve (1 : F) 0 (-1 : F) = short 1 0 := by
        rw [twistCurve]
        congr 1 <;> simp
      have on' : (short (1 : F) 0).Nonsingular x y := curve ▸ on
      have prime : Fact param.r.Prime := ⟨valid.prime⟩
      have order := addOrderOf_eq_prime orderP (WeierstrassCurve.Affine.Point.some_ne_zero on₁)
      obtain ⟨v, value, accumulates⟩ :=
        aPairingProj_eq (two_ne_zero_of_residue residue) valid ordered order represents1 on' axis
      have point : TwistPoint.untwist on axis = distort on' axis := by
        simp [TwistPoint.untwist, distort]
      rw [PointS.represents_some_iff] at represents2
      rw [represents2, value, aTateexp_eq_powHom card valid accumulates.nonzero, accumulates.value,
        tate_some _ _ on axis, point]

end Values

section Bilinear

variable {F : Type} [Field F] [DecidableEq F] [FpMethods F] [Fintype F] {param : AParam}
  (card : Fintype.card F = param.q) (valid : param.Valid)

omit [DecidableEq F] [FpMethods F] in
include card valid in
/-- Every reduced value is an `r`-th root of one. -/
theorem fi_pow_order {x : FiData F} (nonzero : x ≠ 0) :
    x ^ ((Fintype.card F - 1) * param.h * param.r) = 1 := by
  have residue : Fintype.card F % 4 = 3 := by
    rw [card]
    exact valid.residue
  have nonsquare : Fact (∀ r : F, r ^ 2 ≠ -1 + 0 * r) := ⟨sq_ne_neg_one residue⟩
  have exponent : (Fintype.card F - 1) * param.h * param.r =
      (Fintype.card F + 1) * (Fintype.card F - 1) := by
    rw [card, ← valid.cofactor]
    ring
  have norm : x ^ (Fintype.card F + 1) =
      algebraMap F (FiData F) (QuadraticAlgebra.norm x) := by
    rw [pow_succ, fi_pow_card residue, QuadraticAlgebra.algebraMap_norm_eq_mul_star, mul_comm]
  have unit : QuadraticAlgebra.norm x ≠ 0 := by
    rwa [Ne, QuadraticAlgebra.norm_eq_zero_iff_eq_zero]
  rw [exponent, pow_mul, norm, ← map_pow, FiniteField.pow_card_sub_one_eq_one _ unit, map_one]

omit [FpMethods F] [Fintype F] in
/-- A point of the curve is one of its twist by minus one. -/
theorem exists_on_twist (Q : (short (1 : F) 0).Point) :
    ∃ Q' : (twistCurve (1 : F) 0 (-1 : F)).Point, ∀ n : ℕ, (n • Q = 0 → n • Q' = 0) ∧
      ∀ p : PointS F, p.Represents (n • Q) → p.Represents (n • Q') := by
  have general (a b : F) (left : 1 = a) (right : 0 = b) : ∃ Q' : (short a b).Point, ∀ n : ℕ,
      (n • Q = 0 → n • Q' = 0) ∧ ∀ p : PointS F, p.Represents (n • Q) → p.Represents (n • Q') := by
    subst left right
    exact ⟨Q, fun n => ⟨id, fun p => id⟩⟩
  apply general
  · simp
  · simp

include card valid

omit [DecidableEq F] in
/-- The pairing of a point with `O` is one. -/
theorem aPairingProj_eq_one {P Q : (short (1 : F) 0).Point} (trivial : P = 0 ∨ Q = 0)
    {in1 in2 : PointS F} (representsP : in1.Represents P) (representsQ : in2.Represents Q)
    (first : FirstReads in1) (second : SecondReads param in2) :
    aPairingProj (pairingInitAParam param) in1 in2 = 1 := by
  rcases Nat.lt_or_ge param.exp1 param.exp2 with ordered | short
  · rcases trivial with rfl | rfl
    · exact aPairingProj_zero_left card valid representsP first
    · exact aPairingProj_zero_right card valid ordered representsQ second
  · exact aPairingProj_of_short card valid short first

/-- The pairing of multiples of two points of order `r` is the power of their pairing. -/
theorem aPairingProj_nsmul {P Q : (short (1 : F) 0).Point} (orderP : param.r • P = 0)
    (orderQ : param.r • Q = 0) {in1 in2 p q : PointS F} (representsP : in1.Represents P)
    (representsQ : in2.Represents Q) (first : FirstReads in1) (second : SecondReads param in2)
    {m n : ℕ} (multipleP : p.Represents (m • P)) (multipleQ : q.Represents (n • Q))
    (firstMultiple : FirstReads p) (secondMultiple : SecondReads param q) :
    aPairingProj (pairingInitAParam param) p q =
      aPairingProj (pairingInitAParam param) in1 in2 ^ (m * n) := by
  have residue : Fintype.card F % 4 = 3 := by
    rw [card]
    exact valid.residue
  have nonsquare : Fact (∀ r : F, r ^ 2 ≠ -1 + 0 * r) := ⟨sq_ne_neg_one residue⟩
  rcases Nat.lt_or_ge param.exp1 param.exp2 with ordered | short
  · obtain ⟨Q', same⟩ := exists_on_twist Q
    have representsQ' : in2.Represents Q' := by
      have once := (same 1).2 in2
      rw [one_nsmul, one_nsmul] at once
      exact once representsQ
    have orderQ' := (same param.r).1 orderQ
    have value := aPairingProj_eq_tate card valid ordered orderP representsP orderQ' representsQ'
      first second
    have power := aPairingProj_eq_tate card valid ordered (P := m • P)
      (by rw [nsmul_left_comm, orderP, nsmul_zero]) multipleP (Q := n • Q')
      (by rw [nsmul_left_comm, orderQ', nsmul_zero]) ((same n).2 q multipleQ) firstMultiple
      secondMultiple
    have bilinear := map_tate_bilinear
      (φ := ScalarClass.powHom _ (scalar_pow_unitary (F := F) param.h))
      (ScalarClass.powHom_pow_eq_one _ fun x nonzero => fi_pow_order card valid nonzero) valid.odd
      orderP orderQ' m n
    rw [power, value, bilinear, Units.val_pow_eq_pow_val]
  · rw [aPairingProj_of_short card valid short first,
      aPairingProj_of_short card valid short firstMultiple, one_pow]

end Bilinear

section Small

private theorem seven_smallAPoint : smallA.r • smallAPoint = 0 :=
  addOrderOf_nsmul_self addOrderOf_smallAPoint

end Small

end Pbc.Ecc
