import Mathlib.FieldTheory.KummerExtension
import Pbc.Algebra.Frobenius
import Pbc.Ecc.FParam

/-!
# The type F final powering

Raising to the power `N = q^2` fixes the coefficients and multiplies `x` by the
scalar `w = (-alpha)^((N-1)/6)`. So `qpower` with the scalar `w^k` is the power
`N^k`, and the exponent splits as `(q^6 - 1) (q^2 + 1) (q^4 - q^2 + 1)`.
-/

open Polynomial Pbc.Arith Pbc.Algebra

namespace Pbc.Ecc

section Frobenius

variable {K : Type*} [Field K] {alpha : K}

theorem monicPoly_fPoly (alpha : K) : monicPoly (fPoly alpha) = X ^ 6 + C alpha := by
  rw [monicPoly, coeffPoly, Fin.sum_univ_six]
  simp [fPoly]

/-- The element `x`. -/
def fVariable (alpha : K) : Polymod (fPoly alpha) := ⟨![0, 1, 0, 0, 0, 0]⟩

theorem quotient_fVariable : (fVariable alpha).quotient = root (fPoly alpha) := by
  rw [Polymod.quotient_eq_sum_six]
  simp [fVariable]

/-- An element as a combination of the powers of `x`. -/
theorem polymod_eq_sum (f : Polymod (fPoly alpha)) :
    f = algebraMap K _ (f.coeff 0) + algebraMap K _ (f.coeff 1) * fVariable alpha +
      algebraMap K _ (f.coeff 2) * fVariable alpha ^ 2 +
      algebraMap K _ (f.coeff 3) * fVariable alpha ^ 3 +
      algebraMap K _ (f.coeff 4) * fVariable alpha ^ 4 +
      algebraMap K _ (f.coeff 5) * fVariable alpha ^ 5 := by
  apply Polymod.quotient_injective
  rw [← Polymod.quotientHom_apply, ← Polymod.quotientHom_apply]
  simp only [map_add, map_mul, map_pow]
  simp only [Polymod.quotientHom_apply, Polymod.algebraMap_eq, Polymod.quotient_fieldToPolymod,
    quotient_fVariable]
  exact Polymod.quotient_eq_sum_six f

theorem fVariable_pow_six : fVariable alpha ^ 6 = algebraMap K _ (-alpha) := by
  apply Polymod.quotient_injective
  rw [Polymod.algebraMap_eq, Polymod.quotient_fieldToPolymod, ← Polymod.quotientHom_apply, map_pow,
    Polymod.quotientHom_apply, quotient_fVariable, root_pow_six]

/-- The coefficient at one of a multiple of `x`. -/
theorem coeff_one_scalar_mul (c : K) :
    (algebraMap K (Polymod (fPoly alpha)) c * fVariable alpha).coeff 1 = c := by
  have same : algebraMap K _ c * fVariable alpha = (⟨![0, c, 0, 0, 0, 0]⟩ : Polymod _) := by
    rw [polymod_eq_sum (⟨![0, c, 0, 0, 0, 0]⟩ : Polymod (fPoly alpha))]
    simp
  rw [same]
  rfl

/-- `qpower` multiplies `x` by the scalar. -/
theorem fQpower_eq [DecidableEq K] [FieldMethods K] (f : Polymod (fPoly alpha)) (e : K) :
    fQpower f e = algebraMap K _ (f.coeff 0) +
      algebraMap K _ (f.coeff 1) * (algebraMap K _ e * fVariable alpha) +
      algebraMap K _ (f.coeff 2) * (algebraMap K _ e * fVariable alpha) ^ 2 +
      algebraMap K _ (f.coeff 3) * (algebraMap K _ e * fVariable alpha) ^ 3 +
      algebraMap K _ (f.coeff 4) * (algebraMap K _ e * fVariable alpha) ^ 4 +
      algebraMap K _ (f.coeff 5) * (algebraMap K _ e * fVariable alpha) ^ 5 := by
  rw [polymod_eq_sum (fQpower f e)]
  simp only [fQpower, Matrix.cons_val, FieldMethods.square_eq, map_mul]
  ring

variable [Fintype K]

/-- The scalar by which the power of the field order multiplies `x`. -/
def fScalar (alpha : K) : K := (-alpha) ^ ((Fintype.card K - 1) / 6)

theorem fVariable_pow_card (six : 6 ∣ Fintype.card K - 1) :
    fVariable alpha ^ Fintype.card K = algebraMap K _ (fScalar alpha) * fVariable alpha := by
  have split : Fintype.card K = 6 * ((Fintype.card K - 1) / 6) + 1 := by
    have := Fintype.card_pos (α := K)
    omega
  conv_lhs => rw [split, pow_succ, pow_mul, fVariable_pow_six, ← map_pow]
  rfl

theorem fScalar_pow_card (k : ℕ) : (fScalar alpha ^ k) ^ Fintype.card K = fScalar alpha ^ k :=
  FiniteField.pow_card _

/-- The powers of the field order multiply `x` by the powers of the scalar. -/
theorem fVariable_pow_card_pow (six : 6 ∣ Fintype.card K - 1) (k : ℕ) :
    fVariable alpha ^ Fintype.card K ^ k =
      algebraMap K _ (fScalar alpha ^ k) * fVariable alpha := by
  induction k with
  | zero => simp
  | succ k ih =>
    rw [pow_succ, pow_mul, ih, mul_pow, ← map_pow, fScalar_pow_card, fVariable_pow_card six,
      ← mul_assoc, ← map_mul, ← pow_succ]

/-- `qpower` with a power of the scalar is the power of the field order. -/
theorem fQpower_pow_card [DecidableEq K] [FieldMethods K] (six : 6 ∣ Fintype.card K - 1) (k : ℕ)
    (f : Polymod (fPoly alpha)) : fQpower f (fScalar alpha ^ k) = f ^ Fintype.card K ^ k := by
  have power (w : Polymod (fPoly alpha)) :
      w ^ Fintype.card K ^ k = (FiniteField.frobeniusAlgHom K _ ^ k) w := by
    induction k with
    | zero => simp
    | succ k ih =>
      rw [pow_succ, pow_mul, pow_succ', AlgHom.mul_apply, ← ih, FiniteField.coe_frobeniusAlgHom]
  rw [fQpower_eq, ← fVariable_pow_card_pow six]
  conv_rhs => rw [power, polymod_eq_sum f]
  simp only [map_add, map_mul, map_pow, AlgHom.commutes, power]

end Frobenius

section Exponents

/-- The square of a number prime to six is one more than a multiple of six. -/
theorem six_dvd_sq_sub_one {q : ℕ} (coprime : Nat.Coprime q 6) : 6 ∣ q ^ 2 - 1 := by
  have odd : q % 2 = 1 := Nat.odd_iff.mp
    (Nat.coprime_two_right.mp (Nat.Coprime.coprime_dvd_right (by decide) coprime))
  have three : ¬3 ∣ q := (Nat.Prime.coprime_iff_not_dvd Nat.prime_three).mp
    (Nat.Coprime.coprime_dvd_right (by decide : 3 ∣ 6) coprime).symm
  have residue : q % 6 = 1 ∨ q % 6 = 5 := by omega
  have square : q ^ 2 % 6 = 1 := by
    rcases residue with one | five
    · rw [Nat.pow_mod, one]
    · rw [Nat.pow_mod, five]
  omega

/-- The cyclotomic factor, as the initialisation computes it. -/
theorem tateexp_eq (q : ℕ) : (q * q - 1) * q * q + 1 = q ^ 4 - q ^ 2 + 1 := by
  rw [Nat.mul_assoc, Nat.sub_mul, one_mul]
  ring_nf

/-- The two parts of the exponent. -/
theorem tate_exponent_split {q r : ℕ} (positive : 0 < q) (divides : r ∣ q ^ 4 - q ^ 2 + 1) :
    (q ^ 12 - 1) / r = ((q ^ 2) ^ 3 - 1) * (q ^ 2 + 1) * ((q ^ 4 - q ^ 2 + 1) / r) := by
  have ordered : q ^ 2 ≤ q ^ 4 := Nat.pow_le_pow_right positive (by decide)
  have one : 1 ≤ (q ^ 2) ^ 3 := Nat.one_le_pow _ _ (pow_pos positive 2)
  have factor : q ^ 12 - 1 = ((q ^ 2) ^ 3 - 1) * (q ^ 2 + 1) * (q ^ 4 - q ^ 2 + 1) := by
    have first : 1 ≤ q ^ 12 := Nat.one_le_pow _ _ positive
    zify [ordered, one, first]
    ring
  rw [factor, Nat.mul_div_assoc _ divides]

end Exponents

section Power

variable {K : Type*} [Field K] [Fintype K] [DecidableEq K] [FieldMethods K] [InvertsNonzero K]
  {alpha : K} {q r : ℕ} (card : Fintype.card K = q ^ 2) (coprime : Nat.Coprime q 6)

include card coprime

omit [Field K] [DecidableEq K] [FieldMethods K] [InvertsNonzero K] in
theorem six_dvd_card_sub_one : 6 ∣ Fintype.card K - 1 := by
  rw [card]
  exact six_dvd_sq_sub_one coprime

/-- The stored scalars are the coefficients of the powers of `x`. -/
theorem pairingInitFParam_ok (nonzero : alpha ≠ 0) : pairingInitFParam q r alpha =
    .ok ⟨-alpha, (-alpha)⁻¹, fScalar alpha, fScalar alpha ^ 3, fScalar alpha ^ 4,
      (q ^ 4 - q ^ 2 + 1) / r⟩ := by
  have coefficient (k : ℕ) : (fVariable alpha ^ (q ^ 2) ^ k).coeff 1 = fScalar alpha ^ k := by
    rw [← card, fVariable_pow_card_pow (six_dvd_card_sub_one card coprime), coeff_one_scalar_mul]
  have twice : (fVariable alpha ^ q) ^ q = fVariable alpha ^ (q ^ 2) ^ 1 := by ring
  have third : ((((((fVariable alpha ^ q) ^ q) ^ q) ^ q) ^ q) ^ q) =
      fVariable alpha ^ (q ^ 2) ^ 3 := by ring
  have fourth : ((((((((fVariable alpha ^ q) ^ q) ^ q) ^ q) ^ q) ^ q) ^ q) ^ q) =
      fVariable alpha ^ (q ^ 2) ^ 4 := by ring
  have start : (⟨![0, 1, 0, 0, 0, 0]⟩ : Polymod (fPoly alpha)) = fVariable alpha := rfl
  simp only [pairingInitFParam, InvertsNonzero.invert_ok (neg_ne_zero.mpr nonzero), bind,
    Except.bind, elementPowMpz_ok, start, tateexp_eq]
  rw [fourth, third, twice, coefficient, coefficient, coefficient, pow_one]
  rfl

variable [irreducible : Fact (Irreducible (monicPoly (fPoly alpha)))]

/-- The easy part of the powering. -/
theorem fTatepower_ok (p : FPairingData K) (scalar2 : p.xpowq2 = fScalar alpha)
    (scalar6 : p.xpowq6 = fScalar alpha ^ 3) (scalar8 : p.xpowq8 = fScalar alpha ^ 4)
    {f : Polymod (fPoly alpha)} (nonzero : f ≠ 0) :
    fTatepower p f = .ok (f ^ (((q ^ 2) ^ 3 - 1) * (q ^ 2 + 1) * p.tateexp)) := by
  have six := six_dvd_card_sub_one card coprime
  have power1 := fQpower_pow_card six 1 f
  have power3 := fQpower_pow_card six 3 f
  have power4 := fQpower_pow_card six 4 f
  rw [card] at power1 power3 power4
  rw [pow_one, pow_one] at power1
  have unit : f ^ q ^ 2 * f ≠ 0 := mul_ne_zero (pow_ne_zero _ nonzero) nonzero
  have easy : f ^ (q ^ 2) ^ 4 * f ^ (q ^ 2) ^ 3 * (f ^ q ^ 2 * f)⁻¹ =
      f ^ (((q ^ 2) ^ 3 - 1) * (q ^ 2 + 1)) := by
    have positive : 1 ≤ (q ^ 2) ^ 3 := by
      rw [← card]
      exact Nat.one_le_pow _ _ Fintype.card_pos
    have split : (q ^ 2) ^ 4 + (q ^ 2) ^ 3 = ((q ^ 2) ^ 3 - 1) * (q ^ 2 + 1) + (q ^ 2 + 1) := by
      rw [← Nat.succ_mul, Nat.succ_eq_add_one, Nat.sub_add_cancel positive]
      ring
    rw [mul_inv_eq_iff_eq_mul₀ unit, ← pow_succ, ← pow_add, ← pow_add, split]
  simp only [fTatepower, scalar2, scalar6, scalar8, power1, power3, power4,
    InvertsNonzero.invert_ok unit, bind, Except.bind, elementPowMpz_ok, easy]
  rw [← pow_mul]

end Power

section Exact

variable {F : Type*} [Field F] [Fintype F] {beta : F}

instance : Fintype (FqData beta) := Fintype.ofEquiv _ (QuadraticAlgebra.equivProd beta 0).symm

theorem card_fqData : Fintype.card (FqData beta) = Fintype.card F ^ 2 := by
  rw [Fintype.card_congr (QuadraticAlgebra.equivProd beta 0), Fintype.card_prod, sq]

omit [Fintype F] in
theorem alpha_ne_zero {K : Type*} [Field K] {alpha : K} (irreducible : Irreducible (X ^ 6 + C alpha)) :
    alpha ≠ 0 := by
  rintro rfl
  rw [C_0, add_zero] at irreducible
  exact not_irreducible_pow (by decide) irreducible

/-- The powering that type F uses gives `f^((q^12-1)/r)` for every nonzero `f`. -/
theorem fTatepower_exact [DecidableEq F] [FpMethods F] {q r : ℕ} (card : Fintype.card F = q)
    (coprime : Nat.Coprime q 6) (nonresidue : ¬IsSquare beta) {alpha : FqData beta}
    (irreducible : Irreducible (X ^ 6 + C alpha)) (divides : r ∣ q ^ 4 - q ^ 2 + 1)
    {f : Polymod (fPoly alpha)} (nonzero : f ≠ 0) :
    ∃ p, pairingInitFParam q r alpha = .ok p ∧ fTatepower p f = .ok (f ^ ((q ^ 12 - 1) / r)) := by
  have nonsquare : Fact (∀ r : F, r ^ 2 ≠ beta + 0 * r) :=
    ⟨fun r square => nonresidue ⟨r, by linear_combination -square⟩⟩
  have extension : Fact (Irreducible (monicPoly (fPoly alpha))) :=
    ⟨by rwa [monicPoly_fPoly]⟩
  have order : Fintype.card (FqData beta) = q ^ 2 := by rw [card_fqData, card]
  have positive : 0 < q := by
    rw [← card]
    exact Fintype.card_pos
  refine ⟨_, pairingInitFParam_ok order coprime (alpha_ne_zero irreducible), ?_⟩
  rw [fTatepower_ok order coprime _ rfl rfl rfl nonzero, tate_exponent_split positive divides]

end Exact

section Small

/-- A sextic `x^6 + alpha` is irreducible when `-alpha` is neither a square nor a
cube. -/
theorem irreducible_sextic {K : Type*} [Field K] {alpha : K} (square : ∀ b : K, b ^ 2 ≠ -alpha)
    (cube : ∀ b : K, b ^ 3 ≠ -alpha) : Irreducible (X ^ 6 + C alpha) := by
  have cubic : Irreducible (X ^ 3 - C (-alpha)) :=
    X_pow_sub_C_irreducible_of_prime Nat.prime_three cube
  have sextic : Irreducible (X ^ (2 * 3) - C (-alpha)) := by
    refine X_pow_mul_sub_C_irreducible cubic fun E _ _ x minimal => ?_
    have integral : IsIntegral K x := by
      by_contra transcendental
      have zero := minpoly.eq_zero transcendental
      rw [minimal] at zero
      exact cubic.ne_zero zero
    refine X_pow_sub_C_irreducible_of_prime Nat.prime_two fun b root => ?_
    apply square (Algebra.norm K b)
    rw [← map_pow, root, ← IntermediateField.adjoin.powerBasis_gen integral,
      Algebra.PowerBasis.norm_gen_eq_coeff_zero_minpoly]
    have sign : (-1) ^ 3 * alpha = -alpha := by ring
    simpa [IntermediateField.minpoly_gen, minimal] using sign
  rwa [C_neg, sub_neg_eq_add] at sextic

/-- An element of `F_25` with `s^2 = 2`. -/
def smallAlpha : FqData (2 : ZMod 5) := ⟨1, 2⟩

private instance nonsquareTwo : Fact (∀ r : ZMod 5, r ^ 2 ≠ 2 + 0 * r) := ⟨by decide⟩

theorem irreducible_smallAlpha : Irreducible (X ^ 6 + C smallAlpha) :=
  irreducible_sextic (by decide) (by decide)

/-- An element of `F_{5^12}`. -/
def smallF : Polymod (fPoly smallAlpha) := ⟨![⟨1, 0⟩, ⟨0, 1⟩, ⟨2, 3⟩, 0, 0, ⟨4, 0⟩]⟩

theorem smallF_ne_zero : smallF ≠ 0 := by
  intro zero
  have first := congrArg (fun f : Polymod (fPoly smallAlpha) => (f.coeff 0).re) zero
  rw [Polymod.coeff_zero] at first
  exact absurd first (by decide)

/-- The power of that element for the order 601. -/
theorem fTatepower_exact_small :
    ∃ p, pairingInitFParam 5 601 smallAlpha = .ok p ∧
      fTatepower p smallF = .ok (smallF ^ ((5 ^ 12 - 1) / 601)) :=
  fTatepower_exact (ZMod.card 5) (by decide) (by decide) irreducible_smallAlpha (by decide)
    smallF_ne_zero

end Small

end Pbc.Ecc
