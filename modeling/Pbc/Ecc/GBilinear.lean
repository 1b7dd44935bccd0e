import Pbc.Ecc.GEllnet

/-!
# Bilinearity of type G

Both methods leave, up to scalars of `F_{q^5}`, the product of the lines along the multiples
of the first point, and the final powering sends those scalars to one. It ends the program
where the Frobenius part of that product is one; everywhere else the pairing is bilinear, in
any mixture of the methods.
-/

open Pbc.Arith Pbc.Gmp Pbc.Algebra Pbc.Elliptic WeierstrassCurve.Affine

namespace Pbc.Ecc

variable {F : Type*} [Field F] [Fintype F] [DecidableEq F] [FpMethods F] {poly : Fin 5 → F}
  {nqr : F} [irreducible : Fact (Irreducible (monicPoly poly))] {a b : F}

/-- The methods whose loops read the ordinates: the elliptic net and the affine loop. -/
def GMethods.Sound (methods : GMethods) : Prop :=
  methods.ellnet = true ∨ methods.miller = .millerAffine

/-- The function with the divisor `r (P) - r (O)` has at the untwisted second point a value
that the powers of Frobenius send to one. -/
def GDegenerate (r : ℕ) (P : (short a b).Point) :
    (twistCurve a b (elementFieldToPolymod poly nqr)).Point → Prop
  | .zero => False
  | .some x y _ => ∃ (T : TwistPoint a b (elementFieldToPolymod poly nqr))
      (f : (short a b).CoordinateRing), x = elementFieldToPolymod poly nqr * T.x ∧
        y = elementFieldToPolymod poly nqr ^ 2 * T.y ∧ IsMillerFunction P r f ∧
        T.eval f ^ ((Fintype.card F ^ 5 - 1) * (Fintype.card F + 1)) = 1

omit [DecidableEq F] [FpMethods F] in
/-- The exponent of the pairing sends the scalars of `F_{q^5}` to one. -/
theorem gScalar_pow {r : ℕ} (divides : r ∣ cyclotomicTen (Fintype.card F)) (c : Polymod poly)
    (nonzero : c ≠ 0) : c ^ ((Fintype.card F ^ 10 - 1) / r) = 1 := by
  refine scalar_pow_of_dvd ?_ c nonzero
  rw [← unit_exponent_ten, Nat.mul_div_assoc _ divides, mul_assoc]
  exact Nat.dvd_mul_right _ _

section Values

variable [nonsquare : Fact (∀ r : Polymod poly, r ^ 2 ≠ elementFieldToPolymod poly nqr + 0 * r)]

omit [FpMethods F] in
/-- Degeneracy is a property of the product of the lines. -/
theorem gDegenerate_iff {r : ℕ} {P : (short a b).Point} (order : r • P = 0) {x y : Polymod poly}
    (on : (twistCurve a b (elementFieldToPolymod poly nqr)).Nonsingular x y) (nonzero : y ≠ 0)
    {g : DGt poly nqr} (run : (TwistPoint.untwist on nonzero).Accumulates P r g) :
    GDegenerate r P (.some x y on) ↔
      g ^ ((Fintype.card F ^ 5 - 1) * (Fintype.card F + 1)) = 1 := by
  have unit : elementFieldToPolymod poly nqr ≠ 0 := ne_zero_of_nonsquare
  have same {f : (short a b).CoordinateRing} (miller : IsMillerFunction P r f) :
      (TwistPoint.untwist on nonzero).eval f ^ ((Fintype.card F ^ 5 - 1) * (Fintype.card F + 1)) =
        g ^ ((Fintype.card F ^ 5 - 1) * (Fintype.card F + 1)) := by
    have value := (TwistPoint.untwist on nonzero).accumulates_of_isMillerFunction order miller
    obtain ⟨c, finite, equal⟩ := ScalarClass.exists_scalar_of_eq value.nonzero run.nonzero
      (value.value.trans run.value.symm)
    rw [equal, mul_pow, ← map_pow, scalar_pow_of_dvd (Nat.dvd_mul_right _ _) c finite, map_one,
      one_mul]
  constructor
  · rintro ⟨T, f, abscissa, ordinate, miller, one⟩
    have point : T = TwistPoint.untwist on nonzero := by
      subst abscissa ordinate
      cases T
      simp only [TwistPoint.untwist, TwistPoint.mk.injEq]
      constructor
      · field_simp
      · field_simp
    rw [← same miller, ← point, one]
  · intro one
    obtain ⟨f, miller, -⟩ := exists_millerFunction order
    refine ⟨TwistPoint.untwist on nonzero, f, ?_, ?_, miller, (same miller).trans one⟩
    · simp only [TwistPoint.untwist]
      field_simp
    · simp only [TwistPoint.untwist]
      field_simp

end Values

section Pairing

variable (two : (2 : F) ≠ 0) (nonresidue : ¬IsSquare nqr) {r : ℕ} {p : GPairingData poly nqr}

include two nonresidue

omit [DecidableEq F] [FpMethods F] in
/-- The Frobenius part is not minus one: its power by an odd number is one. -/
theorem frobeniusPart_ne_neg_one {f : DGt poly nqr} (nonzero : f ≠ 0) :
    f ^ ((Fintype.card F ^ 5 - 1) * (Fintype.card F + 1)) ≠ -1 := by
  intro minus
  have order := odd_extension_pow_order two nonresidue (by decide : Odd 5) nonzero
  rw [show 2 * 5 = 10 from rfl, ← unit_exponent_ten, pow_mul, minus,
    (odd_cyclotomicTen _).neg_one_pow] at order
  have real := congrArg QuadraticAlgebra.re order
  rw [QuadraticAlgebra.re_neg, QuadraticAlgebra.re_one] at real
  exact two_ne_zero_extension two (by linear_combination -real)

/-- Where the Frobenius part is one the program ends. -/
theorem gCcTatepower_exit (built : p.Built (Fintype.card F)) {f : DGt poly nqr} (nonzero : f ≠ 0)
    (degenerate : f ^ ((Fintype.card F ^ 5 - 1) * (Fintype.card F + 1)) = 1) :
    gCcTatepower p f = .error .divisionByZero := by
  have norm := odd_extension_norm two nonresidue (by decide : Odd 5) nonzero (Fintype.card F + 1)
  have real : (f ^ ((Fintype.card F ^ 5 - 1) * (Fintype.card F + 1))).im = 0 := by
    rw [degenerate, QuadraticAlgebra.im_one]
  rw [gCcTatepower_unit two nonresidue built nonzero,
    lucasEven_exit (two_ne_zero_extension two) norm _ real polymodInvert_zero]
  rfl

/-- The pairing of two points of order `r`, by either method. -/
theorem gPairingMap_eq
    [nonsquare : Fact (∀ r : Polymod poly, r ^ 2 ≠ elementFieldToPolymod poly nqr + 0 * r)]
    (initialised : pairingInitGParam poly nqr a b (Fintype.card F) r = .ok p)
    (divides : r ∣ cyclotomicTen (Fintype.card F)) (odd : Odd r) (large : 7 ≤ r)
    {methods : GMethods} (sound : methods.Sound) {P : (short a b).Point} (orderP : addOrderOf P = r)
    {Q : (twistCurve a b (elementFieldToPolymod poly nqr)).Point} (orderQ : addOrderOf Q = r)
    {in1 : PointS F} {in2 : PointS (Polymod poly)} (representsP : in1.Represents P)
    (representsQ : in2.Represents Q) :
    (GDegenerate r P Q → gPairingMap methods p in1 in2 = .error .divisionByZero) ∧
      (¬GDegenerate r P Q → gPairingMap methods p in1 in2 =
        .ok (ScalarClass.powHom ((Fintype.card F ^ 10 - 1) / r)
          (gScalar_pow divides) (tate r P Q) : (DGt poly nqr)ˣ)) := by
  have off := offAxis_of_odd odd (addOrderOf_nsmul_self orderQ)
  have proper : r ≠ 1 := by omega
  cases Q with
  | zero => exact absurd rfl (ne_zero_of_order orderQ proper)
  | some x y on =>
    obtain ⟨-, -, same, built⟩ := pairingInitGParam_built initialised
    rw [PointS.represents_some_iff] at representsQ
    subst representsQ
    obtain ⟨g, returned, run⟩ : ∃ g, gPairingMap methods p in1 ⟨false, x, y⟩ =
        (gCcTatepower p g).map Prod.fst ∧ (TwistPoint.untwist on off).Accumulates P r g := by
      by_cases ellnet : methods.ellnet = true
      · obtain ⟨d1, value, run⟩ := gPairingEllnetValue_ok two initialised odd large orderP on off
          representsP
        refine ⟨d1, ?_, run⟩
        simp only [gPairingMap, ellnet, if_true, gPairingEllnet, value, bind, Except.bind]
        cases gCcTatepower p d1 <;> rfl
      · have affine : methods.miller = .millerAffine := sound.resolve_left ellnet
        obtain ⟨f, value, run⟩ := gCcPairingValue_ok two initialised odd orderP
          (ne_zero_of_order orderP proper) on off representsP
        refine ⟨f, ?_, run⟩
        simp only [gPairingMap, ellnet, affine, gCcPairing, value, bind, Except.bind]
        cases gCcTatepower p f <;> rfl
    rw [gDegenerate_iff (addOrderOf_nsmul_self orderP) on off run, returned]
    constructor
    · intro one
      rw [gCcTatepower_exit two nonresidue built run.nonzero one]
      rfl
    · intro regular
      rw [tate_some r P on off, ← run.value, ScalarClass.powHom_of _ run.nonzero,
        gCcTatepower_ok two nonresidue built (same ▸ divides) run.nonzero regular
          (frobeniusPart_ne_neg_one two nonresidue run.nonzero), same]
      rfl

/-- For points of prime order `r` the pairing of the powers is the power of the pairing, and
both are returned, exactly when neither pair is degenerate. The two calls may use different
methods. -/
theorem gPairingMap_bilinear_iff
    (initialised : pairingInitGParam poly nqr a b (Fintype.card F) r = .ok p)
    (divides : r ∣ cyclotomicTen (Fintype.card F)) (prime : r.Prime) (large : 7 ≤ r)
    {before after : GMethods} (soundBefore : before.Sound) (soundAfter : after.Sound)
    {P : (short a b).Point} (orderP : addOrderOf P = r)
    {Q : (twistCurve a b (elementFieldToPolymod poly nqr)).Point} (orderQ : addOrderOf Q = r)
    {in1 x1 : PointS F} {in2 x2 : PointS (Polymod poly)} (representsP : in1.Represents P)
    (representsQ : in2.Represents Q) {m n : ℕ} (mPositive : 0 < m) (mBounded : m < r)
    (nPositive : 0 < n) (nBounded : n < r) :
    (∃ power1 power2 out value, curvePowMpz a x1 in1 m = .ok power1 ∧
        curvePowMpz (twistCurveCoeffs (elementFieldToPolymod poly nqr)
          (elementFieldToPolymod poly a) (elementFieldToPolymod poly b)).1 x2 in2 n = .ok power2 ∧
        gPairingMap before p in1 in2 = .ok out ∧ gPairingMap after p power1 power2 = .ok value ∧
        elementPowMpz out out (m * n) = .ok value) ↔
      ¬GDegenerate r P Q ∧ ¬GDegenerate r (m • P) (n • Q) := by
  have nonsquare : Fact (∀ r : Polymod poly, r ^ 2 ≠ elementFieldToPolymod poly nqr + 0 * r) :=
    odd_extension_nonresidue two nonresidue (by decide)
  have coeff : (twistCurveCoeffs (elementFieldToPolymod poly nqr) (elementFieldToPolymod poly a)
      (elementFieldToPolymod poly b)).1 =
      algebraMap F (Polymod poly) a * elementFieldToPolymod poly nqr ^ 2 := by
    rw [twistCurveCoeffs, ← Polymod.algebraMap_eq a]
    ring
  have odd : Odd r := (odd_cyclotomicTen _).of_dvd_nat divides
  have orderP' := addOrderOf_nsmul_of_lt prime orderP mPositive mBounded
  have orderQ' := addOrderOf_nsmul_of_lt prime orderQ nPositive nBounded
  have exponent : (Fintype.card F ^ 10 - 1) / r * r = Fintype.card F ^ 10 - 1 := by
    refine Nat.div_mul_cancel (divides.trans ?_)
    rw [← unit_exponent_ten]
    exact Nat.dvd_mul_left _ _
  have bilinear := map_tate_bilinear (φ := ScalarClass.powHom ((Fintype.card F ^ 10 - 1) / r)
    (gScalar_pow divides))
    (ScalarClass.powHom_pow_eq_one _ fun x nonzero => by
      rw [exponent]
      exact odd_extension_pow_order two nonresidue (by decide : Odd 5) nonzero) odd
    (addOrderOf_nsmul_self orderP) (addOrderOf_nsmul_self orderQ) m n
  have single := gPairingMap_eq two nonresidue initialised divides odd large soundBefore orderP
    orderQ representsP representsQ
  have paired := gPairingMap_eq two nonresidue initialised divides odd large soundAfter orderP'
    orderQ' (x1.assign_represents _) (x2.assign_represents _)
  have powerP := curvePowMpz_ok two x1 representsP m
  have powerQ := curvePowMpz_ok (two_ne_zero_extension two) x2 representsQ n
  constructor
  · rintro ⟨power1, power2, out, value, first, second, returned, returned', -⟩
    rw [coeff, powerQ] at second
    obtain rfl := Except.ok.inj (powerP.symm.trans first)
    obtain rfl := Except.ok.inj second
    constructor
    · intro degenerate
      rw [single.1 degenerate] at returned
      cases returned
    · intro degenerate
      rw [paired.1 degenerate] at returned'
      cases returned'
  · rintro ⟨regular, regular'⟩
    refine ⟨_, _, _, _, powerP, by rw [coeff, powerQ], single.2 regular, paired.2 regular', ?_⟩
    rw [elementPowMpz_ok, bilinear, Units.val_pow_eq_pow_val]

end Pairing

section Small

private local instance atLeastTwo_twelve : Nat.AtLeastTwo 12 := ⟨by decide⟩

private local instance atLeastTwo_fourteen : Nat.AtLeastTwo 14 := ⟨by decide⟩

private local instance atLeastTwo_fifteen : Nat.AtLeastTwo 15 := ⟨by decide⟩

private local instance atLeastTwo_twenty : Nat.AtLeastTwo 20 := ⟨by decide⟩

private local instance atLeastTwo_twentyFour : Nat.AtLeastTwo 24 := ⟨by decide⟩

private local instance atLeastTwo_twentySeven : Nat.AtLeastTwo 27 := ⟨by decide⟩

/-- A point of order 41 of `y^2 = x^3 + x + 3`. -/
def bilinearGP : (short (1 : ZMod 31) 3).Point :=
  .some 1 6 (short_nonsingular (by decide) (by decide) (by decide))

/-- A point of order 41 of its twist over `F_{31^5}`. -/
noncomputable def bilinearGQ :
    (twistCurve (1 : ZMod 31) 3 (elementFieldToPolymod smallQuintic 3)).Point :=
  .some ⟨![0, 15, 20, 6, 14]⟩ ⟨![27, 12, 24, 1, 2]⟩ (short_nonsingular
    (two_ne_zero_extension (by decide)) (by decide) (by decide))

theorem bilinearGP_represents : PointS.Represents ⟨false, 1, 6⟩ bilinearGP := rfl

theorem bilinearGQ_represents :
    PointS.Represents ⟨false, ⟨![0, 15, 20, 6, 14]⟩, ⟨![27, 12, 24, 1, 2]⟩⟩ bilinearGQ := rfl

private theorem bilinearG_computed :
    (curvePowMpz (1 : ZMod 31) curveInit ⟨false, 1, 6⟩ 41).toOption.any PointS.infFlag = true ∧
    (curvePowMpz (algebraMap (ZMod 31) (Polymod smallQuintic) 1 *
      elementFieldToPolymod smallQuintic 3 ^ 2) curveInit
      ⟨false, ⟨![0, 15, 20, 6, 14]⟩, ⟨![27, 12, 24, 1, 2]⟩⟩ 41).toOption.any PointS.infFlag = true ∧
    41 ∣ cyclotomicTen (Fintype.card (ZMod 31)) := by decide +kernel

theorem addOrderOf_bilinearGP : addOrderOf bilinearGP = 41 := by
  exact addOrderOf_eq_of_curvePowMpz (by norm_num) (by decide) bilinearGP_represents rfl
    bilinearG_computed.1

theorem addOrderOf_bilinearGQ : addOrderOf bilinearGQ = 41 := by
  exact addOrderOf_eq_of_curvePowMpz (by norm_num) (two_ne_zero_extension (by decide))
    bilinearGQ_represents rfl bilinearG_computed.2.1

/-- The pairing of `3 P` and `2 Q`, with the affine loop before the powers and the elliptic
net after them. -/
theorem gPairingMap_bilinear_small :
    (∃ power1 power2 out value, curvePowMpz 1 curveInit ⟨false, 1, 6⟩ 3 = .ok power1 ∧
        curvePowMpz (twistCurveCoeffs (elementFieldToPolymod smallQuintic 3)
          (elementFieldToPolymod smallQuintic 1) (elementFieldToPolymod smallQuintic 3)).1 curveInit
          ⟨false, ⟨![0, 15, 20, 6, 14]⟩, ⟨![27, 12, 24, 1, 2]⟩⟩ 2 = .ok power2 ∧
        gPairingMap ⟨.millerAffine, false⟩ smallG ⟨false, 1, 6⟩
          ⟨false, ⟨![0, 15, 20, 6, 14]⟩, ⟨![27, 12, 24, 1, 2]⟩⟩ = .ok out ∧
        gPairingMap ⟨.miller, true⟩ smallG power1 power2 = .ok value ∧
        elementPowMpz out out (3 * 2) = .ok value) ↔
      ¬GDegenerate 41 bilinearGP bilinearGQ ∧ ¬GDegenerate 41 (3 • bilinearGP) (2 • bilinearGQ) :=
  gPairingMap_bilinear_iff (by decide) nonresidue_three smallG_initialised bilinearG_computed.2.2
    (by norm_num) (by decide) (Or.inr rfl) (Or.inl rfl) addOrderOf_bilinearGP addOrderOf_bilinearGQ
    bilinearGP_represents bilinearGQ_represents (by decide) (by decide) (by decide) (by decide)

end Small

end Pbc.Ecc
