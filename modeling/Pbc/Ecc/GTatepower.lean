import Pbc.Ecc.GParam
import Pbc.Ecc.OddExtension

/-!
# The final powering of type G

In embedding degree ten the power `(q^10 - 1) / r` is split: Frobenius maps raise to
`(q^5 - 1) (q + 1)`, which leaves an element of norm one, and a Lucas ladder raises that to
`(q^4 - q^3 + q^2 - q + 1) / r`, unless its second coordinate is zero.
-/

open Pbc.Arith Pbc.Gmp Pbc.Algebra

namespace Pbc.Ecc

section Exponents

/-- The value of the tenth cyclotomic polynomial. -/
def cyclotomicTen (q : ℕ) : ℕ := q ^ 4 - q ^ 3 + q ^ 2 - q + 1

/-- No difference is cut off. -/
theorem cyclotomicTen_add (q : ℕ) : cyclotomicTen q + q ^ 3 + q = q ^ 4 + q ^ 2 + 1 := by
  have small : q ≤ q ^ 2 := Nat.le_self_pow two_ne_zero q
  have large : q ^ 3 ≤ q ^ 4 := by
    rcases Nat.eq_zero_or_pos q with rfl | positive
    · exact le_refl 0
    · exact Nat.pow_le_pow_right positive (by decide)
  rw [cyclotomicTen]
  omega

theorem odd_cyclotomicTen (q : ℕ) : Odd (cyclotomicTen q) := by
  have sum := cyclotomicTen_add q
  have fourth : (q ^ 4 + q ^ 2) % 2 = 0 := by
    rcases Nat.mod_two_eq_zero_or_one q with even | odd
    · simp [Nat.add_mod, Nat.pow_mod, even]
    · simp [Nat.add_mod, Nat.pow_mod, odd]
  have third : (q ^ 3 + q) % 2 = 0 := by
    rcases Nat.mod_two_eq_zero_or_one q with even | odd
    · simp [Nat.add_mod, Nat.pow_mod, even]
    · simp [Nat.add_mod, Nat.pow_mod, odd]
  rw [Nat.odd_iff]
  omega

/-- The first power removes `q + 1` from the exponent of the Frobenius products. -/
private theorem frobenius_exponent_ten {q : ℕ} (positive : 0 < q) :
    q ^ 6 + q ^ 5 = (q ^ 5 - 1) * (q + 1) + (q + 1) := by
  obtain ⟨t, split⟩ := Nat.exists_eq_add_of_le (Nat.one_le_pow 5 q positive)
  have sixth : q ^ 6 = q ^ 5 * q := pow_succ q 5
  rw [sixth, split, Nat.add_sub_cancel_left]
  ring

/-- The two powers make the whole one. -/
theorem unit_exponent_ten (q : ℕ) :
    (q ^ 5 - 1) * (q + 1) * cyclotomicTen q = q ^ 10 - 1 := by
  have product : (q + 1) * cyclotomicTen q = q ^ 5 + 1 := by
    have sum := congrArg ((q + 1) * ·) (cyclotomicTen_add q)
    simp only [mul_add] at sum
    have left : (q + 1) * q ^ 3 + (q + 1) * q = q ^ 4 + q ^ 3 + q ^ 2 + q := by ring
    have right : (q + 1) * q ^ 4 + (q + 1) * q ^ 2 + (q + 1) * 1 =
        q ^ 5 + q ^ 4 + q ^ 3 + q ^ 2 + q + 1 := by ring
    omega
  have square := Nat.sq_sub_sq (q ^ 5) 1
  rw [one_pow, ← pow_mul] at square
  rw [mul_assoc, product, square, mul_comm]

end Exponents

variable {F : Type*} [Field F] [Fintype F] [DecidableEq F] [FpMethods F] {poly : Fin 5 → F}
  {nqr : F}

section Initialisation

/-- The data that initialisation stores. -/
structure GPairingData.Built (p : GPairingData poly nqr) (q : ℕ) : Prop where
  xpowq : p.xpowq = extensionVariable poly ^ q
  xpowq2 : p.xpowq2 = p.xpowq ^ 2
  xpowq3 : p.xpowq3 = p.xpowq ^ 3
  xpowq4 : p.xpowq4 = p.xpowq ^ 4
  phikonr : p.phikonr = cyclotomicTen q / p.r
  nqrinv : FieldMethods.invert (elementFieldToPolymod poly nqr) = .ok p.nqrinv
  nqrinv2 : p.nqrinv2 = p.nqrinv ^ 2

omit [Fintype F] in
theorem pairingInitGParam_built {a b : F} {q r : ℕ} {p : GPairingData poly nqr}
    (initialised : pairingInitGParam poly nqr a b q r = .ok p) :
    p.a = a ∧ p.b = b ∧ p.r = r ∧ p.Built q := by
  have value : (1 - (q : ℤ) + q * q - q * q * q + q * q * q * q) = (cyclotomicTen q : ℕ) := by
    have sum := congrArg (Nat.cast : ℕ → ℤ) (cyclotomicTen_add q)
    push_cast at sum
    linear_combination -sum
  simp only [pairingInitGParam, elementPowMpz_ok, bind, Except.bind, pure, Except.pure] at initialised
  cases inverted : FieldMethods.invert (elementFieldToPolymod poly nqr) with
  | error e =>
    rw [inverted] at initialised
    cases initialised
  | ok v =>
    rw [inverted] at initialised
    obtain rfl := Except.ok.inj initialised
    refine ⟨rfl, rfl, rfl, rfl, ?_, ?_, ?_, ?_, inverted, ?_⟩
    · exact (FieldMethods.square_eq _).trans (sq _).symm
    · simp only [FieldMethods.square_eq]
      ring
    · simp only [FieldMethods.square_eq]
      ring
    · simp only
      rw [value, ← Int.natCast_div, Int.toNat_natCast]
    · exact (FieldMethods.square_eq _).trans (sq _).symm

end Initialisation

/-- `qpower` applies Frobenius to the coordinates, with the sign of its argument. -/
theorem gQpower_eq {p : GPairingData poly nqr} (built : p.Built (Fintype.card F)) (f : DGt poly nqr)
    (sign : Bool) :
    gQpower p f sign = ⟨f.re ^ Fintype.card F,
      if sign then f.im ^ Fintype.card F else -f.im ^ Fintype.card F⟩ := by
  have at0 (e : Polymod poly) : coeffAt e.coeff 0 = e.coeff 0 := rfl
  have at1 (e : Polymod poly) : coeffAt e.coeff 1 = e.coeff 1 := rfl
  have at2 (e : Polymod poly) : coeffAt e.coeff 2 = e.coeff 2 := rfl
  have at3 (e : Polymod poly) : coeffAt e.coeff 3 = e.coeff 3 := rfl
  have at4 (e : Polymod poly) : coeffAt e.coeff 4 = e.coeff 4 := rfl
  have power (e : Polymod poly) : e ^ Fintype.card F = algebraMap F _ (e.coeff 0) +
      algebraMap F _ (e.coeff 1) * p.xpowq + algebraMap F _ (e.coeff 2) * p.xpowq ^ 2 +
      algebraMap F _ (e.coeff 3) * p.xpowq ^ 3 + algebraMap F _ (e.coeff 4) * p.xpowq ^ 4 := by
    rw [polymod_pow_card (by decide) e, Fin.sum_univ_five, built.xpowq]
    simp
  cases sign with
  | true =>
    simp only [gQpower, if_true, at0, at1, at2, at3, at4, built.xpowq2, built.xpowq3, built.xpowq4,
      addConstant_eq, Polymod.polymodConstMul_eq, Polymod.polymodAdd_eq]
    ext1
    · simp only
      rw [power f.re]
      ring
    · simp only
      rw [power f.im]
      ring
  | false =>
    simp only [gQpower, Bool.false_eq_true, if_false, at0, at1, at2, at3, at4, built.xpowq2,
      built.xpowq3, built.xpowq4, addConstant_eq, Polymod.polymodConstMul_eq, Polymod.polymodAdd_eq,
      Polymod.polymodNeg_eq, Polymod.polymodSub_eq, map_neg]
    ext1
    · simp only
      rw [power f.re]
      ring
    · simp only
      rw [power f.im]
      ring

section Power

variable [irreducible : Fact (Irreducible (monicPoly poly))] (two : (2 : F) ≠ 0)
  (nonresidue : ¬IsSquare nqr)

include two nonresidue

/-- The Frobenius maps of an element. -/
theorem gQpower_pow {p : GPairingData poly nqr} (built : p.Built (Fintype.card F))
    (f : DGt poly nqr) : gQpower p f true = f ^ Fintype.card F ^ 6 ∧
      (⟨f.re, -f.im⟩ : DGt poly nqr) = f ^ Fintype.card F ^ 5 ∧
      gQpower p f false = f ^ Fintype.card F := by
  have degree : Odd 5 := by decide
  refine ⟨?_, ?_, ?_⟩
  · rw [gQpower_eq built, pow_succ' (Fintype.card F) 5, pow_mul, dGt_pow_card two nonresidue,
      odd_extension_pow_card two nonresidue degree]
    ext
    · simp
    · simp
  · rw [odd_extension_pow_card two nonresidue degree]
    ext
    · simp
    · simp
  · rw [gQpower_eq built, dGt_pow_card two nonresidue]
    rfl

omit [DecidableEq F] [FpMethods F] two nonresidue in
/-- The Frobenius part, with its denominator. -/
theorem frobeniusPart_mul (f : DGt poly nqr) :
    f ^ ((Fintype.card F ^ 5 - 1) * (Fintype.card F + 1)) * (f ^ Fintype.card F * f) =
      f ^ Fintype.card F ^ 6 * f ^ Fintype.card F ^ 5 := by
  rw [← pow_succ, ← pow_add, ← pow_add, ← frobenius_exponent_ten Fintype.card_pos]

/-- The Frobenius part leaves the power `(q^5 - 1) (q + 1)` for the ladder. -/
theorem gCcTatepower_unit {p : GPairingData poly nqr} (built : p.Built (Fintype.card F))
    {f : DGt poly nqr} (nonzero : f ≠ 0) :
    gCcTatepower p f =
      (lucasEven (f ^ ((Fintype.card F ^ 5 - 1) * (Fintype.card F + 1))) p.phikonr).map
        fun out => (out, f ^ ((Fintype.card F ^ 5 - 1) * (Fintype.card F + 1))) := by
  have : Fact (∀ r : Polymod poly, r ^ 2 ≠ elementFieldToPolymod poly nqr + 0 * r) :=
    odd_extension_nonresidue two nonresidue (by decide)
  obtain ⟨positive, conjugate, negative⟩ := gQpower_pow two nonresidue built f
  have below : f ^ Fintype.card F * f ≠ 0 := mul_ne_zero (pow_ne_zero _ nonzero) nonzero
  have quotient : f ^ Fintype.card F ^ 6 * f ^ Fintype.card F ^ 5 * (f ^ Fintype.card F * f)⁻¹ =
      f ^ ((Fintype.card F ^ 5 - 1) * (Fintype.card F + 1)) := by
    rw [← frobeniusPart_mul, mul_inv_cancel_right₀ below]
  simp only [gCcTatepower, conjugate, positive, negative, fqMul_eq, fqInvert_eq below, bind,
    Except.bind, quotient]
  cases lucasEven (f ^ ((Fintype.card F ^ 5 - 1) * (Fintype.card F + 1))) p.phikonr <;> rfl

omit [DecidableEq F] [FpMethods F] in
/-- The Frobenius part lies in the base only when it is one or minus one. -/
theorem unit_im_ne_zero {f : DGt poly nqr} (nonzero : f ≠ 0)
    (plus : f ^ ((Fintype.card F ^ 5 - 1) * (Fintype.card F + 1)) ≠ 1)
    (minus : f ^ ((Fintype.card F ^ 5 - 1) * (Fintype.card F + 1)) ≠ -1) :
    (f ^ ((Fintype.card F ^ 5 - 1) * (Fintype.card F + 1))).im ≠ 0 := by
  have norm := odd_extension_norm two nonresidue (by decide : Odd 5) nonzero (Fintype.card F + 1)
  intro real
  rw [real, zero_mul, zero_mul, sub_zero] at norm
  rcases mul_self_eq_one_iff.mp norm with one | opposite
  · apply plus
    ext1
    · exact one
    · exact real
  · apply minus
    ext1
    · exact opposite
    · exact real.trans neg_zero.symm

/-- Where the Frobenius part is neither one nor minus one the result is the whole power. -/
theorem gCcTatepower_ok {p : GPairingData poly nqr} (built : p.Built (Fintype.card F))
    (divides : p.r ∣ cyclotomicTen (Fintype.card F)) {f : DGt poly nqr} (nonzero : f ≠ 0)
    (plus : f ^ ((Fintype.card F ^ 5 - 1) * (Fintype.card F + 1)) ≠ 1)
    (minus : f ^ ((Fintype.card F ^ 5 - 1) * (Fintype.card F + 1)) ≠ -1) :
    gCcTatepower p f = .ok (f ^ ((Fintype.card F ^ 10 - 1) / p.r),
      f ^ ((Fintype.card F ^ 5 - 1) * (Fintype.card F + 1))) := by
  have odd : Odd p.phikonr := by
    rw [built.phikonr]
    exact (odd_cyclotomicTen _).of_dvd_nat (Nat.div_dvd_of_dvd divides)
  have power : (f ^ ((Fintype.card F ^ 5 - 1) * (Fintype.card F + 1))) ^ p.phikonr =
      f ^ ((Fintype.card F ^ 10 - 1) / p.r) := by
    rw [← pow_mul, built.phikonr, ← Nat.mul_div_assoc _ divides, unit_exponent_ten]
  rw [gCcTatepower_unit two nonresidue built nonzero,
    lucasEven_ok (two_ne_zero_extension two) (residue_ne_zero nonresidue)
      (odd_extension_norm two nonresidue (by decide : Odd 5) nonzero _) odd
      (unit_im_ne_zero two nonresidue nonzero plus minus), power]
  rfl

/-- `cc_tatepower` returns the power `(q^10 - 1) / r` of a nonzero element whose power
`(q^5 - 1) (q + 1)` is neither one nor minus one, whether or not it writes over its argument. -/
theorem gCcTatepowerAt_eq_pow {ι : Type*} [DecidableEq ι] {a b : F} {r : ℕ}
    {p : GPairingData poly nqr}
    (initialised : pairingInitGParam poly nqr a b (Fintype.card F) r = .ok p)
    (divides : r ∣ cyclotomicTen (Fintype.card F)) (objects : ι → DGt poly nqr) (out inn : ι)
    (nonzero : objects inn ≠ 0)
    (plus : objects inn ^ ((Fintype.card F ^ 5 - 1) * (Fintype.card F + 1)) ≠ 1)
    (minus : objects inn ^ ((Fintype.card F ^ 5 - 1) * (Fintype.card F + 1)) ≠ -1) :
    ∃ after, gCcTatepowerAt p objects out inn = .ok after ∧
      after out = objects inn ^ ((Fintype.card F ^ 10 - 1) / r) := by
  obtain ⟨-, -, rfl, built⟩ := pairingInitGParam_built initialised
  have returned := gCcTatepower_ok two nonresidue built divides nonzero plus minus
  refine ⟨_, by rw [gCcTatepowerAt, returned]; rfl, Function.update_self _ _ _⟩

end Power

section Small

instance primeThirtyOne : Fact (Nat.Prime 31) := ⟨by norm_num⟩

/-- The lower coefficients of `x^5 - 2` over `F_31`. -/
def smallQuintic : Fin 5 → ZMod 31 := ![-2, 0, 0, 0, 0]

instance irreducibleSmallQuintic : Fact (Irreducible (monicPoly smallQuintic)) :=
  ⟨irreducible_monicPoly_five (by decide)⟩

theorem nonresidue_three : ¬IsSquare (3 : ZMod 31) := by decide

/-- A small parameter set: `y^2 = x^3 + x + 3` over `F_31` has 41 points. -/
def smallG : GPairingData smallQuintic 3 where
  a := 1
  b := 3
  r := 41
  nqrinv := ⟨![21, 0, 0, 0, 0]⟩
  nqrinv2 := ⟨![7, 0, 0, 0, 0]⟩
  xpowq := ⟨![0, 2, 0, 0, 0]⟩
  xpowq2 := ⟨![0, 0, 4, 0, 0]⟩
  xpowq3 := ⟨![0, 0, 0, 8, 0]⟩
  xpowq4 := ⟨![0, 0, 0, 0, 16]⟩
  phikonr := 21821
  tateexp := 19990933828800

/-- The small parameters are what initialisation leaves. -/
theorem smallG_initialised :
    pairingInitGParam smallQuintic 3 1 3 (Fintype.card (ZMod 31)) 41 = .ok smallG := by
  have nonzero : elementFieldToPolymod smallQuintic 3 ≠ 0 := by decide
  have inverse : elementFieldToPolymod smallQuintic 3 * ⟨![21, 0, 0, 0, 0]⟩ = 1 := by decide
  have inverted := InvertsNonzero.invert_ok nonzero
  rw [← eq_inv_of_mul_eq_one_right inverse] at inverted
  simp only [pairingInitGParam, elementPowMpz_ok, inverted, bind, Except.bind, pure, Except.pure,
    ZMod.card, smallG, Except.ok.injEq, GPairingData.mk.injEq]
  decide +kernel

/-- The element `x + s` of `F_{31^10}`. -/
def smallGElement : DGt smallQuintic 3 := ⟨⟨![0, 1, 0, 0, 0]⟩, ⟨![1, 0, 0, 0, 0]⟩⟩

/-- The Frobenius part of `x + s` is `(2 x + s) (x - s) / ((2 x - s) (x + s))`. -/
private theorem smallGElement_part {u f : DGt smallQuintic 3}
    (element : f = ⟨⟨![0, 1, 0, 0, 0]⟩, 1⟩)
    (part : u * ((⟨⟨![0, 2, 0, 0, 0]⟩, -1⟩ : DGt smallQuintic 3) * f) =
      (⟨⟨![0, 2, 0, 0, 0]⟩, 1⟩ : DGt smallQuintic 3) * ⟨⟨![0, 1, 0, 0, 0]⟩, -1⟩) :
    u ≠ 1 ∧ u ≠ -1 := by
  have square : (⟨![0, 2, 0, 0, 0]⟩ : Polymod smallQuintic) * ⟨![0, 1, 0, 0, 0]⟩ =
      ⟨![0, 0, 2, 0, 0]⟩ := by decide
  rw [element] at part
  constructor
  · rintro rfl
    have imaginary := congrArg QuadraticAlgebra.im part
    simp only [one_mul, QuadraticAlgebra.im_mul, mul_one, mul_neg, neg_mul] at imaginary
    exact absurd imaginary (by decide)
  · rintro rfl
    have real := congrArg QuadraticAlgebra.re part
    simp only [neg_mul, one_mul, QuadraticAlgebra.re_neg, QuadraticAlgebra.re_mul, square, mul_one,
      mul_neg] at real
    exact absurd real (by decide)

/-- The power of `x + s`, written over its argument. -/
theorem gCcTatepowerAt_eq_pow_small :
    ∃ after, gCcTatepowerAt smallG (fun _ : Unit => smallGElement) () () = .ok after ∧
      after () = smallGElement ^ ((Fintype.card (ZMod 31) ^ 10 - 1) / 41) := by
  have two : (2 : ZMod 31) ≠ 0 := by decide
  obtain ⟨-, -, -, built⟩ := pairingInitGParam_built smallG_initialised
  obtain ⟨sixth, fifth, first⟩ := gQpower_pow two nonresidue_three built smallGElement
  have plus : gQpower smallG smallGElement true = ⟨⟨![0, 2, 0, 0, 0]⟩, 1⟩ :=
    QuadraticAlgebra.ext (by decide) (by decide)
  have minus : gQpower smallG smallGElement false = ⟨⟨![0, 2, 0, 0, 0]⟩, -1⟩ :=
    QuadraticAlgebra.ext (by decide) (by decide)
  have element : smallGElement = ⟨⟨![0, 1, 0, 0, 0]⟩, 1⟩ :=
    QuadraticAlgebra.ext (by decide) (by decide)
  have conjugate : (⟨smallGElement.re, -smallGElement.im⟩ : DGt smallQuintic 3) =
      ⟨⟨![0, 1, 0, 0, 0]⟩, -1⟩ :=
    QuadraticAlgebra.ext (by decide) (by decide)
  have part := frobeniusPart_mul smallGElement
  rw [← sixth, ← fifth, ← first, plus, minus, conjugate] at part
  obtain ⟨plus, minus⟩ := smallGElement_part element part
  exact gCcTatepowerAt_eq_pow two nonresidue_three smallG_initialised (by decide)
    (fun _ => smallGElement) () () (by decide) plus minus

end Small

end Pbc.Ecc
