import Mathlib.RingTheory.Henselian
import Mathlib.RingTheory.RegularLocalRing.Defs
import Mathlib.Tactic.NormNum.LegendreSymbol
import Pbc.Ecc.DTatepower
import Pbc.Elliptic.Miller

/-!
# The type D Miller loop

The affine loop reads the bits of the order from the top and keeps the multiple
of the first point that belongs to the bits read. The value it returns is, up to
scalars of `F_{q^3}`, the product of the lines along the multiples of the point.
-/

open Pbc.Arith Pbc.Gmp Pbc.Number Pbc.Algebra Pbc.Elliptic

namespace Pbc.Ecc

section Loop

variable {F : Type*} [Field F] [DecidableEq F] [FpMethods F] {n : ℕ} {poly : Fin n → F} {nqr : F}
  [irreducible : Fact (Irreducible (monicPoly poly))]

omit [DecidableEq F] [FpMethods F] in
/-- The evaluation routine computes the value of the line. -/
theorem dMillerEvalfn_eq (line : PpCoeff F) (Qx Qy : Polymod poly) :
    dMillerEvalfn nqr line Qx Qy =
      lineAt (elementFieldToPolymod poly nqr) line.a line.b line.c Qx Qy := by
  ext1
  · rw [lineAt, ← Polymod.polymodConstMul_eq, Polymod.algebraMap_eq]
    apply Polymod.ext
    funext i
    by_cases first : (i : ℕ) = 0
    · simp only [dMillerEvalfn, polymodConstMul, Polymod.coeff_add, elementFieldToPolymod,
        if_pos first]
    · simp only [dMillerEvalfn, polymodConstMul, Polymod.coeff_add, elementFieldToPolymod,
        if_neg first, add_zero]
  · rw [lineAt, ← Polymod.polymodConstMul_eq line.b]
    apply Polymod.ext
    funext i
    rfl

variable [nonsquare : Fact (∀ r : Polymod poly, r ^ 2 ≠ elementFieldToPolymod poly nqr + 0 * r)]
  (two : (2 : F) ≠ 0) {a b : F} (Q : TwistPoint a b (elementFieldToPolymod poly nqr))

variable {P : (short a b).Point} {r k : ℕ} {p Z : PointS F}

include two

/-- The coefficients of `do_tangent` at a multiple of the point. -/
theorem doTangent_meets (odd : Odd r) (order : addOrderOf P = r) (positive : 0 < k)
    (bounded : k < r) (multiple : Z.Represents (k • P)) :
    Q.MeetsLine (k • P) (k • P) (dMillerEvalfn nqr (doTangent a Z) Q.x Q.y) := by
  obtain ⟨x, y, on, point, axis⟩ := exists_nsmul_eq_some odd order positive bounded
  rw [point, PointS.represents_some_iff] at multiple
  subst multiple
  rw [point, dMillerEvalfn_eq]
  apply Q.meetsLine_tangent two on axis one_ne_zero
  · simp only [doTangent, FieldMethods.square_eq]
    ring
  · simp only [doTangent]
    ring
  · simp only [doTangent, FieldMethods.square_eq]
    ring

omit two [FpMethods F] in
/-- The coefficients of `do_line` at a multiple and at the point itself. -/
theorem doLine_meets (odd : Odd r) (order : addOrderOf P = r) (above : 1 < k) (below : k + 1 < r)
    (multiple : Z.Represents (k • P)) (represents : p.Represents P) :
    Q.MeetsLine (k • P) P (dMillerEvalfn nqr (doLine p Z) Q.x Q.y) := by
  obtain ⟨x₁, y₁, on₁, point, -⟩ := exists_nsmul_eq_some odd order (k := k) (by omega) (by omega)
  obtain ⟨x, y, on, base, -⟩ := exists_nsmul_eq_some odd order one_pos (by omega)
  rw [one_nsmul] at base
  have distinct := nsmul_x_ne order above below base point
  rw [point, PointS.represents_some_iff] at multiple
  rw [base, PointS.represents_some_iff] at represents
  subst multiple represents
  rw [point, base, dMillerEvalfn_eq]
  apply Q.meetsLine_chord on₁ on distinct one_ne_zero
  · simp only [doLine, one_mul]
  · simp only [doLine, one_mul]
  · simp only [doLine]
    ring

/-- From the bits above `m` the loop reaches the order. -/
theorem ccMillerNoDenomAffineLoop_ok (odd : Odd r) (order : addOrderOf P = r)
    (represents : p.Represents P) (m : ℕ) (bounded : m + 1 ≤ r.log2) {Z : PointS F}
    (multiple : Z.Represents ((r >>> (m + 1)) • P)) {w : DGt poly nqr}
    (before : Q.Accumulates P (r >>> (m + 1)) w) :
    ∃ f, ccMillerNoDenomAffineLoop a r p Q.x Q.y m Z (w * w) = .ok f ∧ Q.Accumulates P r f := by
  induction m generalizing Z w with
  | zero =>
    have whole := odd_eq_append odd
    have above := shiftRight_pos odd.pos.ne' bounded
    rw [zero_add] at *
    generalize r >>> 1 = k at *
    have tangent := doTangent_meets two Q odd order above (by omega) multiple
    refine ⟨_, rfl, ?_⟩
    rw [fqMul_eq, whole]
    exact (before.double tangent).last (whole ▸ addOrderOf_nsmul_self order)
  | succ m ih =>
    obtain ⟨above, below⟩ := shiftRight_bounds odd bounded
    have next := shiftRight_eq_append r (m + 1)
    generalize r >>> (m + 1 + 1) = k at *
    have tangent := doTangent_meets two Q odd order above (by omega) multiple
    have even := before.double tangent
    have doubled : (Z.assign ((2 * k) • P)).Represents ((2 * k) • P) := Z.assign_represents _
    rw [ccMillerNoDenomAffineLoop, curveDouble_nsmul two Z multiple]
    generalize Z.assign ((2 * k) • P) = Z₂ at doubled
    cases bit : r.testBit (m + 1) with
    | false =>
      rw [bit, Bool.toNat_false, add_zero] at next
      rw [next] at ih
      simp only [bind, Except.bind, mpzTstbit, bit, Bool.false_eq_true, if_false, fqMul_eq,
        fqSquare_eq]
      exact ih (by omega) doubled even
    | true =>
      rw [bit, Bool.toNat_true] at next
      rw [next] at ih
      have chord := doLine_meets Q odd order (by omega) below doubled represents
      simp only [bind, Except.bind, mpzTstbit, bit, if_true, fqMul_eq, fqSquare_eq,
        curveMul_nsmul two Z₂ doubled represents]
      exact ih (by omega) (Z₂.assign_represents _) (even.succ chord)

/-- The affine loop on a point of odd order. -/
theorem ccMillerNoDenomAffine_ok (odd : Odd r) (order : addOrderOf P = r)
    (represents : p.Represents P) (finite : P ≠ 0) :
    ∃ f, ccMillerNoDenomAffine nqr a r p Q.x Q.y = .ok f ∧ Q.Accumulates P r f := by
  have start := mpzSizeinbase2_sub_two (two_le_order odd order finite)
  have single : r >>> (mpzSizeinbase2 r - 2 + 1) = 1 := by
    rw [start]
    exact shiftRight_log2 odd.pos.ne'
  have run := ccMillerNoDenomAffineLoop_ok two Q odd order represents (mpzSizeinbase2 r - 2)
    start.le (Z := curveSet curveInit p) (w := 1)
  rw [single, one_nsmul, mul_one, curveSet_eq curveInit represents] at run
  rw [ccMillerNoDenomAffine, curveSet_eq curveInit represents]
  exact run (PointS.assign_represents _ _) .one

end Loop

section Pairing

variable {F : Type*} [Field F] [Fintype F] [DecidableEq F] [FpMethods F] {poly : Fin 3 → F}
  {nqr : F} [irreducible : Fact (Irreducible (monicPoly poly))] {a b : F}

/-- A point of the twist stands for a point of the curve over the target field. -/
def Untwists (T : TwistPoint a b (elementFieldToPolymod poly nqr)) :
    (twistCurve a b (elementFieldToPolymod poly nqr)).Point → Prop
  | .zero => False
  | .some x y _ => x = elementFieldToPolymod poly nqr * T.x ∧
      y = elementFieldToPolymod poly nqr ^ 2 * T.y

/-- The function with the divisor `r (P) - r (O)` has at the untwisted second
point a value that the powers of Frobenius send to one. -/
def Degenerate (r : ℕ) (P : (short a b).Point)
    (Q : (twistCurve a b (elementFieldToPolymod poly nqr)).Point) : Prop :=
  ∃ (T : TwistPoint a b (elementFieldToPolymod poly nqr)) (f : (short a b).CoordinateRing),
    Untwists T Q ∧ IsMillerFunction P r f ∧
      T.eval f ^ ((Fintype.card F ^ 3 - 1) * (Fintype.card F + 1)) = 1

omit [DecidableEq F] [FpMethods F] in
/-- The powers of Frobenius send the scalars of `F_{q^3}` to one. -/
theorem scalar_pow {e : ℕ} (divides : (Fintype.card F ^ 3 - 1) * (Fintype.card F + 1) ∣ e)
    (c : Polymod poly) (nonzero : c ≠ 0) : c ^ e = 1 :=
  scalar_pow_of_dvd (dvd_of_mul_right_dvd divides) c nonzero

omit [DecidableEq F] [FpMethods F] in
/-- The exponent of the pairing, after the powers of Frobenius. -/
theorem unit_dvd_exponent {r : ℕ}
    (divides : r ∣ Fintype.card F * Fintype.card F - Fintype.card F + 1) :
    (Fintype.card F ^ 3 - 1) * (Fintype.card F + 1) ∣ (Fintype.card F ^ 6 - 1) / r := by
  rw [← unit_exponent Fintype.card_pos, Nat.mul_div_assoc _ divides]
  exact Nat.dvd_mul_right _ _

section Values

variable [nonsquare : Fact (∀ r : Polymod poly, r ^ 2 ≠ elementFieldToPolymod poly nqr + 0 * r)]

omit [Fintype F] [DecidableEq F] [FpMethods F] in
theorem untwists_untwist {x y : Polymod poly}
    (on : (twistCurve a b (elementFieldToPolymod poly nqr)).Nonsingular x y) (nonzero : y ≠ 0) :
    Untwists (TwistPoint.untwist on nonzero) (.some x y on) := by
  have unit : elementFieldToPolymod poly nqr ≠ 0 := ne_zero_of_nonsquare
  constructor
  · simp only [TwistPoint.untwist]
    field_simp
  · simp only [TwistPoint.untwist]
    field_simp

omit [Fintype F] [DecidableEq F] [FpMethods F] in
theorem Untwists.unique {T S : TwistPoint a b (elementFieldToPolymod poly nqr)}
    {Q : (twistCurve a b (elementFieldToPolymod poly nqr)).Point} (left : Untwists T Q)
    (right : Untwists S Q) : T = S := by
  have unit : elementFieldToPolymod poly nqr ≠ 0 := ne_zero_of_nonsquare
  cases Q with
  | zero => exact left.elim
  | some x y on =>
    have abscissa := mul_left_cancel₀ unit (left.1.symm.trans right.1)
    have ordinate := mul_left_cancel₀ (pow_ne_zero 2 unit) (left.2.symm.trans right.2)
    cases T
    cases S
    simp only at abscissa ordinate
    simp only [abscissa, ordinate]

omit [FpMethods F] in
/-- Degeneracy is a property of the product of the lines. -/
theorem degenerate_iff {r : ℕ} {P : (short a b).Point} (order : r • P = 0)
    {x y : Polymod poly}
    (on : (twistCurve a b (elementFieldToPolymod poly nqr)).Nonsingular x y) (nonzero : y ≠ 0)
    {g : DGt poly nqr} (run : (TwistPoint.untwist on nonzero).Accumulates P r g) :
    Degenerate r P (.some x y on) ↔ g ^ ((Fintype.card F ^ 3 - 1) * (Fintype.card F + 1)) = 1 := by
  have same {f : (short a b).CoordinateRing} (miller : IsMillerFunction P r f) :
      (TwistPoint.untwist on nonzero).eval f ^ ((Fintype.card F ^ 3 - 1) * (Fintype.card F + 1)) =
        g ^ ((Fintype.card F ^ 3 - 1) * (Fintype.card F + 1)) := by
    have value := (TwistPoint.untwist on nonzero).accumulates_of_isMillerFunction order miller
    obtain ⟨c, unit, equal⟩ := ScalarClass.exists_scalar_of_eq value.nonzero run.nonzero
      (value.value.trans run.value.symm)
    rw [equal, mul_pow, ← map_pow, scalar_pow dvd_rfl c unit, map_one, one_mul]
  constructor
  · rintro ⟨T, f, untwists, miller, one⟩
    rw [← same miller, ← untwists.unique (untwists_untwist on nonzero), one]
  · intro one
    obtain ⟨f, miller, -⟩ := exists_millerFunction order
    exact ⟨_, f, untwists_untwist on nonzero, miller, (same miller).trans one⟩

end Values

variable (two : (2 : F) ≠ 0) (nonresidue : ¬IsSquare nqr) {r : ℕ} {p : MntPairingData poly nqr}

include two nonresidue

omit nonresidue in
/-- The loop of a pairing, on the untwisted second point. -/
theorem ccPairing_miller
    [nonsquare : Fact (∀ r : Polymod poly, r ^ 2 ≠ elementFieldToPolymod poly nqr + 0 * r)]
    (initialised : pairingInitDParam poly nqr a b (Fintype.card F) r 6 = .ok p) (odd : Odd r)
    {P : (short a b).Point} (order : addOrderOf P = r) (finite : P ≠ 0) {x y : Polymod poly}
    (on : (twistCurve a b (elementFieldToPolymod poly nqr)).Nonsingular x y) (nonzero : y ≠ 0)
    {in1 : PointS F} (represents : in1.Represents P) :
    ∃ g, (TwistPoint.untwist on nonzero).Accumulates P r g ∧
      ccPairing .millerAffine p in1 ⟨false, x, y⟩ = (ccTatepower p g).map Prod.fst := by
  obtain ⟨rfl, rfl, rfl, six⟩ := pairingInitDParam_six initialised
  have unit : elementFieldToPolymod poly nqr ≠ 0 := ne_zero_of_nonsquare
  have inverse : p.nqrinv = (elementFieldToPolymod poly nqr)⁻¹ :=
    Except.ok.inj (six.nqrinv.symm.trans (InvertsNonzero.invert_ok unit))
  have square : p.nqrinv2 = (elementFieldToPolymod poly nqr)⁻¹ * (elementFieldToPolymod poly nqr)⁻¹ := by
    rw [six.nqrinv2, inverse, sq]
  obtain ⟨g, returned, run⟩ := ccMillerNoDenomAffine_ok two (TwistPoint.untwist on nonzero) odd order
    represents finite
  refine ⟨g, run, ?_⟩
  simp only [TwistPoint.untwist] at returned
  simp only [ccPairing, ccMillerNoDenomFn, inverse, square, returned, bind, Except.bind]
  cases ccTatepower p g <;> rfl

/-- The pairing of two points of order `r`. -/
theorem ccPairing_eq
    [nonsquare : Fact (∀ r : Polymod poly, r ^ 2 ≠ elementFieldToPolymod poly nqr + 0 * r)]
    (initialised : pairingInitDParam poly nqr a b (Fintype.card F) r 6 = .ok p)
    (divides : r ∣ Fintype.card F * Fintype.card F - Fintype.card F + 1) (odd : Odd r)
    {P : (short a b).Point} (orderP : addOrderOf P = r) (finiteP : P ≠ 0)
    {Q : (twistCurve a b (elementFieldToPolymod poly nqr)).Point} (orderQ : addOrderOf Q = r)
    (finiteQ : Q ≠ 0) {in1 : PointS F} {in2 : PointS (Polymod poly)}
    (representsP : in1.Represents P) (representsQ : in2.Represents Q) :
    (Degenerate r P Q → ccPairing .millerAffine p in1 in2 = .error .divisionByZero) ∧
      (¬Degenerate r P Q → ccPairing .millerAffine p in1 in2 =
        .ok (ScalarClass.powHom ((Fintype.card F ^ 6 - 1) / r)
          (scalar_pow (unit_dvd_exponent divides)) (tate r P Q) : (DGt poly nqr)ˣ)) := by
  have off := offAxis_of_odd odd (addOrderOf_nsmul_self orderQ)
  cases Q with
  | zero => exact absurd rfl finiteQ
  | some x y on =>
    obtain ⟨-, -, same, six⟩ := pairingInitDParam_six initialised
    rw [PointS.represents_some_iff] at representsQ
    subst representsQ
    obtain ⟨g, run, returned⟩ :=
      ccPairing_miller two initialised odd orderP finiteP on off representsP
    rw [degenerate_iff (addOrderOf_nsmul_self orderP) on off run, returned]
    constructor
    · intro one
      rw [ccTatepower_exit two nonresidue six run.nonzero one]
      rfl
    · intro regular
      rw [tate_some r P on off, ← run.value, ScalarClass.powHom_of _ run.nonzero,
        ccTatepower_ok two nonresidue six (same ▸ divides) run.nonzero regular, same]
      rfl

/-- For points of prime order `r` the pairing of the powers is the power of the
pairing, and both are returned, exactly when neither pair is degenerate. -/
theorem ccPairing_bilinear_iff
    (initialised : pairingInitDParam poly nqr a b (Fintype.card F) r 6 = .ok p)
    (divides : r ∣ Fintype.card F * Fintype.card F - Fintype.card F + 1) (prime : r.Prime)
    (odd : Odd r) {P : (short a b).Point} (orderP : addOrderOf P = r)
    {Q : (twistCurve a b (elementFieldToPolymod poly nqr)).Point} (orderQ : addOrderOf Q = r)
    {in1 x1 : PointS F} {in2 x2 : PointS (Polymod poly)} (representsP : in1.Represents P)
    (representsQ : in2.Represents Q) {m n : ℕ} (mPositive : 0 < m) (mBounded : m < r)
    (nPositive : 0 < n) (nBounded : n < r) :
    (∃ power1 power2 out value, curvePowMpz a x1 in1 m = .ok power1 ∧
        curvePowMpz (twistCurveCoeffs (elementFieldToPolymod poly nqr)
          (elementFieldToPolymod poly a) (elementFieldToPolymod poly b)).1 x2 in2 n = .ok power2 ∧
        ccPairing .millerAffine p power1 power2 = .ok value ∧
        ccPairing .millerAffine p in1 in2 = .ok out ∧
        elementPowMpz out out (m * n) = .ok value) ↔
      ¬Degenerate r P Q ∧ ¬Degenerate r (m • P) (n • Q) := by
  have nonsquare : Fact (∀ r : Polymod poly, r ^ 2 ≠ elementFieldToPolymod poly nqr + 0 * r) :=
    dGt_nonresidue two nonresidue
  have coeff : (twistCurveCoeffs (elementFieldToPolymod poly nqr) (elementFieldToPolymod poly a)
      (elementFieldToPolymod poly b)).1 =
      algebraMap F (Polymod poly) a * elementFieldToPolymod poly nqr ^ 2 := by
    rw [twistCurveCoeffs, ← Polymod.algebraMap_eq a]
    ring
  have proper := prime.one_lt.ne'
  have orderP' := addOrderOf_nsmul_of_lt prime orderP mPositive mBounded
  have orderQ' := addOrderOf_nsmul_of_lt prime orderQ nPositive nBounded
  have exponent : (Fintype.card F ^ 6 - 1) / r * r = Fintype.card F ^ 6 - 1 := by
    refine Nat.div_mul_cancel (divides.trans ?_)
    rw [← unit_exponent Fintype.card_pos]
    exact Nat.dvd_mul_left _ _
  have bilinear := map_tate_bilinear (φ := ScalarClass.powHom ((Fintype.card F ^ 6 - 1) / r)
    (scalar_pow (unit_dvd_exponent divides)))
    (ScalarClass.powHom_pow_eq_one _ fun x nonzero => by
      rw [exponent]
      exact dGt_pow_order two nonresidue nonzero) odd (addOrderOf_nsmul_self orderP)
    (addOrderOf_nsmul_self orderQ) m n
  have before := ccPairing_eq two nonresidue initialised divides odd orderP
    (ne_zero_of_order orderP proper) orderQ (ne_zero_of_order orderQ proper) representsP representsQ
  have after := ccPairing_eq two nonresidue initialised divides odd orderP'
    (ne_zero_of_order orderP' proper) orderQ' (ne_zero_of_order orderQ' proper)
    (x1.assign_represents _) (x2.assign_represents _)
  have powerP := curvePowMpz_ok two x1 representsP m
  have powerQ := curvePowMpz_ok (two_ne_zero_extension two) x2 representsQ n
  constructor
  · rintro ⟨power1, power2, out, value, first, second, paired, single, -⟩
    rw [coeff, powerQ] at second
    obtain rfl := Except.ok.inj (powerP.symm.trans first)
    obtain rfl := Except.ok.inj second
    constructor
    · intro degenerate
      rw [before.1 degenerate] at single
      cases single
    · intro degenerate
      rw [after.1 degenerate] at paired
      cases paired
  · rintro ⟨regular, regular'⟩
    refine ⟨_, _, _, _, powerP, by rw [coeff, powerQ], after.2 regular', before.2 regular, ?_⟩
    rw [elementPowMpz_ok, bilinear, Units.val_pow_eq_pow_val]

end Pairing

section Small

/-- The point `(0, 1)` of the small curve. -/
def smallP : (short (2 : ZMod 5) 1).Point :=
  .some 0 1 (short_nonsingular (by decide) (by decide) (by decide))

/-- A point of the small twist. -/
noncomputable def smallQ : (twistCurve (2 : ZMod 5) 1
    (elementFieldToPolymod (![1, 1, 0] : Fin 3 → ZMod 5) 2)).Point :=
  .some ⟨![0, 2, 3]⟩ ⟨![2, 1, 4]⟩ (short_nonsingular
    (two_ne_zero_extension (by decide)) (by decide) (by decide))

theorem smallP_represents : PointS.Represents ⟨false, 0, 1⟩ smallP := rfl

theorem smallQ_represents : PointS.Represents ⟨false, ⟨![0, 2, 3]⟩, ⟨![2, 1, 4]⟩⟩ smallQ := rfl

theorem addOrderOf_smallP : addOrderOf smallP = 7 := by
  exact addOrderOf_eq_of_curvePowMpz (by norm_num) (by decide) smallP_represents rfl
    (by decide)

theorem addOrderOf_smallQ : addOrderOf smallQ = 7 := by
  exact addOrderOf_eq_of_curvePowMpz (by norm_num) (two_ne_zero_extension (by decide))
    smallQ_represents rfl (by decide)

/-- The pairing of `3 P` and `2 Q` on the small parameters. -/
theorem ccPairing_bilinear_small :
    (∃ power1 power2 out value, curvePowMpz 2 curveInit ⟨false, 0, 1⟩ 3 = .ok power1 ∧
        curvePowMpz (twistCurveCoeffs (elementFieldToPolymod ![1, 1, 0] 2)
          (elementFieldToPolymod ![1, 1, 0] 2) (elementFieldToPolymod ![1, 1, 0] 1)).1 curveInit
          ⟨false, ⟨![0, 2, 3]⟩, ⟨![2, 1, 4]⟩⟩ 2 = .ok power2 ∧
        ccPairing .millerAffine smallD power1 power2 = .ok value ∧
        ccPairing .millerAffine smallD ⟨false, 0, 1⟩ ⟨false, ⟨![0, 2, 3]⟩, ⟨![2, 1, 4]⟩⟩ = .ok out ∧
        elementPowMpz out out (3 * 2) = .ok value) ↔
      ¬Degenerate 7 smallP smallQ ∧ ¬Degenerate 7 (3 • smallP) (2 • smallQ) :=
  ccPairing_bilinear_iff (by decide) nonresidue_five smallD_initialised (by decide) (by norm_num)
    (by decide) addOrderOf_smallP addOrderOf_smallQ smallP_represents smallQ_represents
    (by decide) (by decide) (by decide) (by decide)

instance primeDegenerate : Fact (Nat.Prime 1783) := ⟨by norm_num⟩

/-- The cubic of a parameter set with a degenerate pair of points. -/
abbrev degeneratePoly : Fin 3 → ZMod 1783 := ![919, 516, 1518]

private theorem degeneratePoly_rootless (x : ZMod 1783) :
    x ^ 3 + (degeneratePoly 0 + degeneratePoly 1 * x + degeneratePoly 2 * x ^ 2) ≠ 0 := by
  have values : ((List.range 1783).all fun n => (((n + 1518) * n + 516) * n + 919) % 1783 != 0) =
      true := by decide +kernel
  intro root
  have value := List.all_eq_true.mp values x.val (List.mem_range.mpr x.val_lt)
  rw [bne_iff_ne] at value
  apply value
  rw [← Nat.dvd_iff_mod_eq_zero, ← ZMod.natCast_eq_zero_iff]
  push_cast
  rw [ZMod.natCast_zmod_val]
  change x ^ 3 + (919 + 516 * x + 1518 * x ^ 2) = 0 at root
  linear_combination root

instance : Fact (Irreducible (monicPoly degeneratePoly)) :=
  ⟨irreducible_monicPoly_three degeneratePoly_rootless⟩

/-- A point of order 61 of `y^2 = x^3 + 3 x + 125`. -/
def degenerateP : (short (3 : ZMod 1783) 125).Point :=
  .some 1403 258 (short_nonsingular (by decide) (by decide) (by decide))

/-- A point of order 61 of its twist. -/
noncomputable def degenerateQ :
    (twistCurve (3 : ZMod 1783) 125 (elementFieldToPolymod degeneratePoly 3)).Point :=
  .some ⟨![1384, 1010, 862]⟩ ⟨![24, 156, 232]⟩ (short_nonsingular
    (two_ne_zero_extension (by decide)) (by decide) (by decide))

theorem degenerateP_represents : PointS.Represents ⟨false, 1403, 258⟩ degenerateP := rfl

theorem degenerateQ_represents :
    PointS.Represents ⟨false, ⟨![1384, 1010, 862]⟩, ⟨![24, 156, 232]⟩⟩ degenerateQ := rfl

private theorem degenerate_computed :
    (curvePowMpz (3 : ZMod 1783) curveInit ⟨false, 1403, 258⟩ 61).toOption.any PointS.infFlag = true ∧
    (curvePowMpz (algebraMap (ZMod 1783) (Polymod degeneratePoly) 3 *
      elementFieldToPolymod degeneratePoly 3 ^ 2) curveInit
      ⟨false, ⟨![1384, 1010, 862]⟩, ⟨![24, 156, 232]⟩⟩ 61).toOption.any PointS.infFlag = true ∧
    (pairingInitDParam degeneratePoly 3 3 125 1783 61 6).toOption.any (fun p =>
      (ccPairing .millerAffine p ⟨false, 1403, 258⟩
        ⟨false, ⟨![1384, 1010, 862]⟩, ⟨![24, 156, 232]⟩⟩).toOption.isNone) = true := by
  decide +kernel

theorem addOrderOf_degenerateP : addOrderOf degenerateP = 61 := by
  exact addOrderOf_eq_of_curvePowMpz (by norm_num) (by decide) degenerateP_represents rfl
    degenerate_computed.1

theorem addOrderOf_degenerateQ : addOrderOf degenerateQ = 61 := by
  exact addOrderOf_eq_of_curvePowMpz (by norm_num) (two_ne_zero_extension (by decide))
    degenerateQ_represents rfl degenerate_computed.2.1

/-- On these points the program ends, already for the exponents one. -/
theorem ccPairing_degenerate_exit :
    ∃ p, pairingInitDParam degeneratePoly 3 3 125 (Fintype.card (ZMod 1783)) 61 6 = .ok p ∧
      ¬IsSquare (3 : ZMod 1783) ∧ 61 ∣ 1783 * 1783 - 1783 + 1 ∧
      addOrderOf degenerateP = 61 ∧ addOrderOf degenerateQ = 61 ∧
      ¬∃ power1 power2 out value,
        curvePowMpz 3 curveInit ⟨false, 1403, 258⟩ 1 = .ok power1 ∧
        curvePowMpz (twistCurveCoeffs (elementFieldToPolymod degeneratePoly 3)
          (elementFieldToPolymod degeneratePoly 3) (elementFieldToPolymod degeneratePoly 125)).1
          curveInit ⟨false, ⟨![1384, 1010, 862]⟩, ⟨![24, 156, 232]⟩⟩ 1 = .ok power2 ∧
        ccPairing .millerAffine p power1 power2 = .ok value ∧
        ccPairing .millerAffine p ⟨false, 1403, 258⟩
          ⟨false, ⟨![1384, 1010, 862]⟩, ⟨![24, 156, 232]⟩⟩ = .ok out ∧
        elementPowMpz out out (1 * 1) = .ok value := by
  have ends := degenerate_computed.2.2
  rw [ZMod.card]
  cases initialised : pairingInitDParam degeneratePoly 3 3 125 1783 61 6 with
  | error e =>
    rw [initialised] at ends
    cases ends
  | ok p =>
    rw [initialised] at ends
    have nonsquare : ¬IsSquare ((3 : ℤ) : ZMod 1783) :=
      ZMod.nonsquare_of_jacobiSym_eq_neg_one (by norm_num)
    refine ⟨p, rfl, mod_cast nonsquare, by decide, addOrderOf_degenerateP,
      addOrderOf_degenerateQ, ?_⟩
    rintro ⟨-, -, out, -, -, -, -, returned, -⟩
    replace ends : (ccPairing .millerAffine p ⟨false, 1403, 258⟩
      ⟨false, ⟨![1384, 1010, 862]⟩, ⟨![24, 156, 232]⟩⟩).toOption.isNone = true := ends
    rw [returned] at ends
    cases ends

end Small

end Pbc.Ecc
