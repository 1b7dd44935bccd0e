import Pbc.Ecc.DMiller
import Pbc.Ecc.FMiller
import Pbc.Ecc.Untwist

/-!
# Bilinearity of type F

The target field `F_{q^2}[x]/(x^6 + alpha)` is quadratic over `F_{q^2}[y]/(y^3 + alpha)`, with
`y = x^2`. There the second point of `f_pairing` is a point of the quadratic twist by `y`, the
loop multiplies by the lines through the multiples of the first point, and the final powering
sends the scalars to one.
-/

open Polynomial Pbc.Arith Pbc.Gmp Pbc.Number Pbc.Algebra Pbc.Elliptic

namespace Pbc.Ecc

section Tower

variable {K : Type*} [Field K] {alpha : K}

/-- The lower coefficients of `y^3 + alpha`. -/
def fCubic (alpha : K) : Fin 3 → K := ![alpha, 0, 0]

theorem monicPoly_fCubic (alpha : K) : monicPoly (fCubic alpha) = X ^ 3 + C alpha := by
  rw [monicPoly, coeffPoly, Fin.sum_univ_three]
  simp [fCubic]

/-- The sextic is the cubic at `x^2`. -/
theorem irreducible_fCubic (sextic : Irreducible (X ^ 6 + C alpha)) :
    Irreducible (X ^ 3 + C alpha) := by
  apply of_irreducible_expand two_ne_zero
  rw [map_add, map_pow, expand_X, expand_C, ← pow_mul]
  exact sextic

/-- A square root of `-alpha` splits the sextic in two cubics. -/
theorem not_isSquare_neg (sextic : Irreducible (X ^ 6 + C alpha)) : ¬IsSquare (-alpha) := by
  rintro ⟨c, square⟩
  have constant : alpha = -(c * c) := by rw [← square, neg_neg]
  have splits : (X ^ 6 + C alpha : K[X]) = (X ^ 3 - C c) * (X ^ 3 + C c) := by
    rw [constant, C_neg, C_mul]
    ring
  have proper (d : K) : ¬IsUnit (X ^ 3 + C d) := not_isUnit_of_degree_pos _ (by
    rw [degree_X_pow_add_C (by decide)]
    decide)
  rw [splits] at sextic
  rcases sextic.isUnit_or_isUnit rfl with unit | unit
  · rw [sub_eq_add_neg, ← C_neg] at unit
    exact proper _ unit
  · exact proper _ unit

/-- The element `y`. -/
def cubicVariable (alpha : K) : Polymod (fCubic alpha) := extensionVariable (fCubic alpha)

theorem cubicVariable_pow_three : cubicVariable alpha ^ 3 = algebraMap K _ (-alpha) := by
  have reduced : polymodNeg (⟨fCubic alpha⟩ : Polymod (fCubic alpha)) =
      elementFieldToPolymod _ (-alpha) := by
    ext i
    fin_cases i
    · rfl
    all_goals exact neg_zero
  apply Polymod.quotient_injective
  rw [Polymod.algebraMap_eq, ← reduced, ← Polymod.quotientHom_apply, map_pow,
    Polymod.quotientHom_apply, cubicVariable, quotient_extensionVariable (by decide)]
  exact (Polymod.quotient_computeXPowers 0).symm

/-- The field over `F_{q^2}[y]/(y^3 + alpha)` with a square root of `y`. -/
abbrev FSplit (alpha : K) := QuadraticAlgebra (Polymod (fCubic alpha)) (cubicVariable alpha) 0

theorem fSplit_root_sq (alpha : K) : (⟨0, 1⟩ : FSplit alpha) ^ 2 =
    algebraMap (Polymod (fCubic alpha)) _ (cubicVariable alpha) := by
  rw [sq]
  ext1
  · simp
  · simp

theorem fSplit_root (alpha : K) :
    (monicPoly (fPoly alpha)).eval₂ ((algebraMap (Polymod (fCubic alpha)) (FSplit alpha)).comp
      (algebraMap K _)) ⟨0, 1⟩ = 0 := by
  rw [monicPoly_fPoly, eval₂_add, eval₂_pow, eval₂_X, eval₂_C, show 6 = 2 * 3 from rfl, pow_mul,
    fSplit_root_sq, ← map_pow, cubicVariable_pow_three, RingHom.comp_apply, ← map_add, ← map_add,
    neg_add_cancel, map_zero, map_zero]

/-- The classes of polynomials at that root. -/
noncomputable def fSplitHom (alpha : K) : AdjoinRoot (monicPoly (fPoly alpha)) →+* FSplit alpha :=
  AdjoinRoot.lift _ _ (fSplit_root alpha)

@[simp] theorem fSplitHom_of (c : K) : fSplitHom alpha (AdjoinRoot.of _ c) =
    algebraMap (Polymod (fCubic alpha)) _ (algebraMap K _ c) :=
  AdjoinRoot.lift_of (fSplit_root alpha)

@[simp] theorem fSplitHom_root : fSplitHom alpha (root (fPoly alpha)) = ⟨0, 1⟩ :=
  AdjoinRoot.lift_root (fSplit_root alpha)

/-- The target field as a quadratic extension, by `x^2 = y`. -/
noncomputable def fTower (alpha : K) : Polymod (fPoly alpha) →+* FSplit alpha :=
  (fSplitHom alpha).comp (Polymod.quotientHom (fPoly alpha))

theorem fTower_apply (f : Polymod (fPoly alpha)) : fTower alpha f = fSplitHom alpha f.quotient := rfl

end Tower

section Lines

variable {F : Type*} [Field F] {beta : F} {alpha : FqData beta}
  [nonsquare : Fact (∀ r : F, r ^ 2 ≠ beta + 0 * r)]
  [cubic : Fact (Irreducible (monicPoly (fCubic alpha)))]

/-- The base field under the cubic. -/
noncomputable local instance cubicBase : Algebra F (Polymod (fCubic alpha)) :=
  ((algebraMap (FqData beta) (Polymod (fCubic alpha))).comp (algebraMap F (FqData beta))).toAlgebra

theorem cubicBase_apply (c : F) : algebraMap F (Polymod (fCubic alpha)) c =
    algebraMap (FqData beta) _ (algebraMap F _ c) := rfl

/-- The line at a point of the twist, over the extension. -/
theorem lineAt_cubic (A B C : F) (X Y : Polymod (fCubic alpha)) :
    lineAt (cubicVariable alpha) A B C X Y =
      algebraMap _ (FSplit alpha) (algebraMap F _ A * X + algebraMap F _ C) +
        algebraMap _ (FSplit alpha) (algebraMap F _ B * Y) * ⟨0, 1⟩ := by
  ext1
  · simp [lineAt]
  · simp [lineAt]

/-- The step multiplies by the line at the point `(Qx y^2, Qy y)` of the twist. -/
theorem fTower_evalfn (line : PpCoeff F) (Qx Qy : FqData beta) (v : Polymod (fPoly alpha))
    (t : FTemps (FqData beta)) :
    fTower alpha (fMillerEvalfn line Qx Qy (-alpha) v t).1 = fTower alpha v *
      lineAt (cubicVariable alpha) line.a line.b line.c
        (algebraMap (FqData beta) _ Qx * cubicVariable alpha ^ 2)
        (algebraMap (FqData beta) _ Qy * cubicVariable alpha) := by
  have square := fSplit_root_sq alpha
  rw [fTower_apply, quotient_fMillerEvalfn, quotient_fLine, map_mul, ← fTower_apply, lineAt_cubic]
  congr 1
  simp only [map_add, map_mul, map_pow, fSplitHom_of, fSplitHom_root, cubicBase_apply]
  generalize (⟨0, 1⟩ : FSplit alpha) = x at *
  generalize algebraMap (Polymod (fCubic alpha)) (FSplit alpha) = wide at *
  -- the powers 4 and 3 of `x` are `y^2` and `y x`
  linear_combination
    (wide (algebraMap (FqData beta) _ (algebraMap F _ line.a)) *
      wide (algebraMap (FqData beta) _ Qx) * (x ^ 2 + wide (cubicVariable alpha)) +
    wide (algebraMap (FqData beta) _ (algebraMap F _ line.b)) *
      wide (algebraMap (FqData beta) _ Qy) * x) * square

/-- The twist of the program over the cubic extension is the twist by `y`. -/
theorem fTwist_rescales (b : F) :
    Rescales (algebraMap (FqData beta) (Polymod (fCubic alpha))) 0 (fTwistB alpha b)
      (algebraMap F _ 0 * cubicVariable alpha ^ 2) (algebraMap F _ b * cubicVariable alpha ^ 3) 1 where
  nonzero := one_ne_zero
  linear := by rw [map_zero, map_zero, zero_mul, zero_mul]
  constant := by
    rw [one_pow, mul_one, cubicVariable_pow_three, cubicBase_apply, ← map_mul]
    congr 1
    ext1
    · simp [fTwistB, mul_comm]
    · simp [fTwistB, mul_comm]

section Loop

variable [DecidableEq F] [FpMethods F]
  [twist : Fact (∀ r : Polymod (fCubic alpha), r ^ 2 ≠ cubicVariable alpha + 0 * r)]
  (two : (2 : F) ≠ 0) {b : F} (T : TwistPoint 0 b (cubicVariable alpha))
  {P : (short 0 b).Point} {r k : ℕ} {p Z : PointS F}

include two

/-- The coefficients of `do_tangent` at a multiple of the point. -/
theorem fDoTangent_meets (odd : Odd r) (order : addOrderOf P = r) (positive : 0 < k)
    (bounded : k < r) (multiple : Z.Represents (k • P)) :
    T.MeetsLine (k • P) (k • P) (lineAt (cubicVariable alpha) (fDoTangent Z).a (fDoTangent Z).b
      (fDoTangent Z).c T.x T.y) := by
  obtain ⟨x, y, on, point, axis⟩ := exists_nsmul_eq_some odd order positive bounded
  rw [point, PointS.represents_some_iff] at multiple
  subst multiple
  rw [point]
  apply T.meetsLine_tangent two on axis one_ne_zero
  · simp only [fDoTangent, FieldMethods.square_eq]
    ring
  · simp only [fDoTangent]
    ring
  · simp only [fDoTangent, FieldMethods.square_eq]
    ring

omit two [FpMethods F] in
/-- The coefficients of `do_line` at a multiple and at the point itself. -/
theorem fDoLine_meets (odd : Odd r) (order : addOrderOf P = r) (above : 1 < k) (below : k + 1 < r)
    (multiple : Z.Represents (k • P)) (represents : p.Represents P) :
    T.MeetsLine (k • P) P (lineAt (cubicVariable alpha) (doLine p Z).a (doLine p Z).b
      (doLine p Z).c T.x T.y) := by
  obtain ⟨x₁, y₁, on₁, point, -⟩ := exists_nsmul_eq_some odd order (k := k) (by omega) (by omega)
  obtain ⟨x, y, on, base, -⟩ := exists_nsmul_eq_some odd order one_pos (by omega)
  rw [one_nsmul] at base
  have distinct := nsmul_x_ne order above below base point
  rw [point, PointS.represents_some_iff] at multiple
  rw [base, PointS.represents_some_iff] at represents
  subst multiple represents
  rw [point, base]
  apply T.meetsLine_chord on₁ on distinct one_ne_zero
  · simp only [doLine, one_mul]
  · simp only [doLine, one_mul]
  · simp only [doLine]
    ring

variable {Qx Qy : FqData beta}
  (abscissa : T.x = algebraMap (FqData beta) _ Qx * cubicVariable alpha ^ 2)
  (ordinate : T.y = algebraMap (FqData beta) _ Qy * cubicVariable alpha)

include abscissa ordinate

/-- From the bits above `m` the loop reaches the order. -/
theorem fMillerNoDenomLoop_ok (odd : Odd r) (order : addOrderOf P = r)
    (represents : p.Represents P) (m : ℕ) (bounded : m + 1 ≤ r.log2) {Z : PointS F}
    (multiple : Z.Represents ((r >>> (m + 1)) • P)) {v w : Polymod (fPoly alpha)}
    (before : T.Accumulates P (r >>> (m + 1)) (fTower alpha w)) (square : v = w * w)
    (t : FTemps (FqData beta)) :
    ∃ f, fMillerNoDenomLoop r p Qx Qy (-alpha) m Z v t = .ok f ∧
      T.Accumulates P r (fTower alpha f) := by
  induction m generalizing Z v w t with
  | zero =>
    have whole := odd_eq_append odd
    have above := shiftRight_pos odd.pos.ne' bounded
    rw [zero_add] at *
    generalize r >>> 1 = k at *
    have tangent := fDoTangent_meets two T odd order above (by omega) multiple
    refine ⟨_, rfl, ?_⟩
    rw [fTower_evalfn, square, map_mul, ← abscissa, ← ordinate, whole]
    exact (before.double tangent).last (whole ▸ addOrderOf_nsmul_self order)
  | succ m ih =>
    obtain ⟨above, below⟩ := shiftRight_bounds odd bounded
    have next := shiftRight_eq_append r (m + 1)
    generalize r >>> (m + 1 + 1) = k at *
    have tangent := fDoTangent_meets two T odd order above (by omega) multiple
    have even := before.double tangent
    rw [abscissa, ordinate, ← map_mul, ← square, ← fTower_evalfn (fDoTangent Z) Qx Qy v t] at even
    have doubled : (Z.assign ((2 * k) • P)).Represents ((2 * k) • P) := Z.assign_represents _
    rw [fMillerNoDenomLoop, curveDouble_nsmul two Z multiple]
    generalize Z.assign ((2 * k) • P) = Z₂ at doubled
    cases bit : r.testBit (m + 1) with
    | false =>
      rw [bit, Bool.toNat_false, add_zero] at next
      rw [next] at ih
      simp only [bind, Except.bind, mpzTstbit, bit, Bool.false_eq_true, if_false]
      exact ih (by omega) doubled even (FieldMethods.square_eq _) _
    | true =>
      rw [bit, Bool.toNat_true] at next
      rw [next] at ih
      have chord := fDoLine_meets T odd order (by omega) below doubled represents
      have whole := even.succ chord
      rw [abscissa, ordinate, ← fTower_evalfn (doLine p Z₂) Qx Qy _
        (fMillerEvalfn (fDoTangent Z) Qx Qy (-alpha) v t).2] at whole
      simp only [bind, Except.bind, mpzTstbit, bit, if_true,
        curveMul_nsmul two Z₂ doubled represents]
      exact ih (by omega) (Z₂.assign_represents _) whole (FieldMethods.square_eq _) _

/-- The loop on a point of odd order. -/
theorem fMillerNoDenom_ok (odd : Odd r) (order : addOrderOf P = r) (represents : p.Represents P)
    (finite : P ≠ 0) : ∃ f : Polymod (fPoly alpha), fMillerNoDenom r p Qx Qy (-alpha) = .ok f ∧
      T.Accumulates P r (fTower alpha f) := by
  have start := mpzSizeinbase2_sub_two (two_le_order odd order finite)
  have single : r >>> (mpzSizeinbase2 r - 2 + 1) = 1 := by
    rw [start]
    exact shiftRight_log2 odd.pos.ne'
  apply fMillerNoDenomLoop_ok two T abscissa ordinate odd order represents _ start.le
  · rw [single, one_nsmul]
    exact represents
  · rw [single, map_one]
    exact .one
  · exact (mul_one 1).symm

end Loop

section Pairing

/-- The cyclotomic value is odd. -/
theorem odd_of_dvd_cyclotomic {q r : ℕ} (divides : r ∣ q ^ 4 - q ^ 2 + 1) :
    Odd r := by
  apply Odd.of_dvd_nat _ divides
  have factor : q ^ 4 - q ^ 2 = q ^ 2 * (q ^ 2 - 1) := by
    rw [Nat.mul_sub, mul_one, ← pow_add]
  have consecutive : Even (q ^ 2 * (q ^ 2 - 1)) := Nat.even_mul_pred_self (q ^ 2)
  rw [factor]
  exact consecutive.add_one

variable [Fintype F] [DecidableEq F] [FpMethods F]
  [extension : Fact (Irreducible (monicPoly (fPoly alpha)))]
  {q r : ℕ} (card : Fintype.card F = q) (coprime : Nat.Coprime q 6)

include card

omit cubic [DecidableEq F] [FpMethods F] extension in
theorem card_cubic : Fintype.card (Polymod (fCubic alpha)) = (q ^ 2) ^ 3 := by
  rw [Polymod.card_polymod, card_fqData, card]

omit [DecidableEq F] [FpMethods F] extension in
/-- The exponent of the pairing sends the scalars of the cubic extension to one. -/
theorem cubic_scalar_pow (divides : r ∣ q ^ 4 - q ^ 2 + 1) (c : Polymod (fCubic alpha))
    (nonzero : c ≠ 0) : c ^ ((q ^ 12 - 1) / r) = 1 := by
  have positive : 0 < q := card ▸ Fintype.card_pos
  have order : Fintype.card (Polymod (fCubic alpha)) = (q ^ 2) ^ 3 := card_cubic card
  rw [tate_exponent_split positive divides, ← order, mul_assoc, pow_mul,
    FiniteField.pow_card_sub_one_eq_one c nonzero, one_pow]

omit [DecidableEq F] [FpMethods F] extension in
/-- The target field has `q^12` elements. -/
theorem fSplit_pow_order [Fact (∀ r : Polymod (fCubic alpha), r ^ 2 ≠ cubicVariable alpha + 0 * r)]
    {f : FSplit alpha} (nonzero : f ≠ 0) : f ^ (q ^ 12 - 1) = 1 := by
  have order : Fintype.card (FSplit alpha) = q ^ 12 := by
    rw [card_fqData, card_cubic card]
    ring
  rw [← order]
  exact FiniteField.pow_card_sub_one_eq_one f nonzero

include coprime

omit nonsquare cubic [DecidableEq F] [FpMethods F] extension in
theorem two_ne_zero_of_coprime : (2 : F) ≠ 0 := by
  apply two_ne_zero_of_odd_card
  rw [card, ← Nat.odd_iff]
  exact Nat.coprime_two_right.mp (Nat.Coprime.coprime_dvd_right (by decide) coprime)

omit [DecidableEq F] [FpMethods F] in
theorem fCubic_nonsquare :
    Fact (∀ r : Polymod (fCubic alpha), r ^ 2 ≠ cubicVariable alpha + 0 * r) :=
  ⟨fun root square => by
    have two := two_ne_zero_of_coprime card coprime
    have wide : (2 : FqData beta) ≠ 0 := by
      intro zero
      exact two (congrArg QuadraticAlgebra.re zero)
    have sextic := extension.out
    rw [monicPoly_fPoly] at sextic
    apply sq_ne_of_odd_extension (L := Polymod (fCubic alpha)) wide (not_isSquare_neg sextic)
      (by decide : Odd 3) Polymod.card_polymod (root ^ 3)
    rw [zero_mul, add_zero] at square
    rw [← pow_mul, mul_comm, pow_mul, square, cubicVariable_pow_three]⟩

/-- A point of the program's twist over the cubic extension. -/
noncomputable def fLift (b : F) : (short 0 (fTwistB alpha b)).Point →+
    (twistCurve (0 : F) b (cubicVariable alpha)).Point :=
  rescale (fTwist_rescales b)

/-- The pairing of two points of order `r` is the power of the product of the lines. -/
theorem fPairing_eq [twist : Fact (∀ r : Polymod (fCubic alpha), r ^ 2 ≠ cubicVariable alpha + 0 * r)]
    (divides : r ∣ q ^ 4 - q ^ 2 + 1) {p : FPairingData (FqData beta)} (initialised : pairingInitFParam q r alpha = .ok p)
    (odd : Odd r) {b : F} {P : (short 0 b).Point} (orderP : addOrderOf P = r) (finiteP : P ≠ 0)
    {Q : (short 0 (fTwistB alpha b)).Point} (orderQ : addOrderOf Q = r) (finiteQ : Q ≠ 0)
    {in1 : PointS F} {in2 : PointS (FqData beta)} (representsP : in1.Represents P)
    (representsQ : in2.Represents Q) :
    ∃ out : Polymod (fPoly alpha), fPairing p r in1 in2 = .ok out ∧
      fTower alpha out = (ScalarClass.powHom ((q ^ 12 - 1) / r) (cubic_scalar_pow card divides)
        (tate r P (fLift b Q)) : (FSplit alpha)ˣ) := by
  have order : Fintype.card (FqData beta) = q ^ 2 := by rw [card_fqData, card]
  have unit : -alpha ≠ 0 := fAlpha_ne_zero
  have off := offAxis_of_odd odd (addOrderOf_nsmul_self orderQ)
  obtain rfl := Except.ok.inj
    ((pairingInitFParam_ok (r := r) order coprime (neg_ne_zero.mp unit)).symm.trans initialised)
  cases Q with
  | zero => exact absurd rfl finiteQ
  | some x y on =>
    rw [PointS.represents_some_iff] at representsQ
    subst representsQ
    have scales : Rescales (algebraMap (FqData beta) (Polymod (fCubic alpha))) 0 (fTwistB alpha b)
        _ _ 1 := fTwist_rescales b
    have lifted := scales.nonsingular on
    have axis : algebraMap (FqData beta) (Polymod (fCubic alpha)) y / 1 ^ 3 ≠ 0 := by
      rw [one_pow, div_one, Ne, map_eq_zero]
      exact off
    have cube : cubicVariable alpha ^ 3 = algebraMap (FqData beta) _ (-alpha) :=
      cubicVariable_pow_three
    have nonzero : cubicVariable alpha ≠ 0 := ne_zero_of_nonsquare
    have scaled (c : FqData beta) : algebraMap (FqData beta) (Polymod (fCubic alpha))
        (c * (-alpha)⁻¹) * cubicVariable alpha ^ 3 = algebraMap (FqData beta) _ c := by
      rw [cube, ← map_mul, inv_mul_cancel_right₀ unit]
    have abscissa : (TwistPoint.untwist lifted axis).x =
        algebraMap (FqData beta) _ (x * (-alpha)⁻¹) * cubicVariable alpha ^ 2 := by
      simp only [TwistPoint.untwist]
      rw [← scaled x]
      field_simp
    have ordinate : (TwistPoint.untwist lifted axis).y =
        algebraMap (FqData beta) _ (y * (-alpha)⁻¹) * cubicVariable alpha := by
      simp only [TwistPoint.untwist]
      rw [← scaled y]
      field_simp
    obtain ⟨v, returned, run⟩ := fMillerNoDenom_ok (two_ne_zero_of_coprime card coprime) _ abscissa
      ordinate odd orderP representsP finiteP
    have finite : v ≠ 0 := fun zero => run.nonzero (by rw [zero, map_zero])
    refine ⟨v ^ ((q ^ 12 - 1) / r), ?_, ?_⟩
    · simp only [fPairing, returned, bind, Except.bind]
      rw [fTatepower_ok order coprime _ rfl rfl rfl finite,
        tate_exponent_split (card ▸ Fintype.card_pos) divides]
    · have kills : ∀ c : Polymod (fCubic alpha), c ≠ 0 → c ^ ((q ^ 12 - 1) / r) = 1 :=
        cubic_scalar_pow card divides
      have power := ScalarClass.powHom_of kills run.nonzero
      rw [map_pow, ← power, run.value]
      exact congrArg (fun z => ((ScalarClass.powHom _ _ z : (FSplit alpha)ˣ) : FSplit alpha))
        (tate_some r P lifted axis).symm

end Pairing

end Lines

section Bilinear

variable {F : Type*} [Field F] [Fintype F] [DecidableEq F] [FpMethods F] {beta : F}
  {alpha : FqData beta} [nonsquare : Fact (∀ r : F, r ^ 2 ≠ beta + 0 * r)]

end Bilinear

section Small

private local instance primeNineteen : Fact (Nat.Prime 19) := ⟨by norm_num⟩

private local instance nonsquareNineteen : Fact (∀ r : ZMod 19, r ^ 2 ≠ 2 + 0 * r) := ⟨by decide⟩

private local instance atLeastTwo_nine : Nat.AtLeastTwo 9 := ⟨by decide⟩

private local instance atLeastTwo_ten : Nat.AtLeastTwo 10 := ⟨by decide⟩

private local instance atLeastTwo_eleven : Nat.AtLeastTwo 11 := ⟨by decide⟩

/-- The element `alpha` of a small parameter set, for `q = 19` and `r = 13`. -/
abbrev bilinearAlpha : FqData (2 : ZMod 19) := ⟨1, 9⟩

private theorem bilinearAlpha_powers :
    (∀ x y : ZMod 19, x * x + 2 * (y * y) = -1 → 2 * (x * y) ≠ -9) ∧
    (∀ x y : ZMod 19, x * (x * x + 6 * (y * y)) = -1 → y * (3 * (x * x) + 2 * (y * y)) ≠ -9) := by
  decide

theorem irreducible_bilinearAlpha : Irreducible (X ^ 6 + C bilinearAlpha) := by
  refine irreducible_sextic (fun b equal => ?_) fun b equal => ?_
  · have re : (b * b).re = -1 := by rw [← sq, equal]; rfl
    have im : (b * b).im = -9 := by rw [← sq, equal]; rfl
    simp only [QuadraticAlgebra.re_mul, QuadraticAlgebra.im_mul] at re im
    exact bilinearAlpha_powers.1 b.re b.im (by linear_combination re) (by linear_combination im)
  · have re : (b * (b * b)).re = -1 := by rw [← sq, ← pow_succ', equal]; rfl
    have im : (b * (b * b)).im = -9 := by rw [← sq, ← pow_succ', equal]; rfl
    simp only [QuadraticAlgebra.re_mul, QuadraticAlgebra.im_mul] at re im
    exact bilinearAlpha_powers.2 b.re b.im (by linear_combination re) (by linear_combination im)

/-- A point of `y^2 = x^3 + 2`. -/
def bilinearP : (short (0 : ZMod 19) 2).Point :=
  .some 4 3 (short_nonsingular (by decide) (by decide) (by decide))

/-- A point of its twist. -/
noncomputable def bilinearQ : (short 0 (fTwistB bilinearAlpha 2)).Point :=
  .some ⟨10, 5⟩ ⟨11, 1⟩ (short_nonsingular (by decide) (by decide) (by decide))

theorem bilinearP_represents : PointS.Represents ⟨false, 4, 3⟩ bilinearP := rfl

theorem bilinearQ_represents : PointS.Represents ⟨false, ⟨10, 5⟩, ⟨11, 1⟩⟩ bilinearQ := rfl

theorem addOrderOf_bilinearP : addOrderOf bilinearP = 13 := by
  exact addOrderOf_eq_of_curvePowMpz (by norm_num) (by decide) bilinearP_represents rfl
    (by decide)

theorem addOrderOf_bilinearQ : addOrderOf bilinearQ = 13 := by
  exact addOrderOf_eq_of_curvePowMpz (by norm_num) (by decide) bilinearQ_represents rfl
    (by decide)

end Small

end Pbc.Ecc
