import Pbc.Ecc.OddExtension

/-!
# The final powering of type D

In embedding degree six the power `(q^6 - 1) / r` is split: Frobenius maps raise
to `(q^3 - 1) (q + 1)`, which leaves an element of norm one, and a Lucas ladder
raises that to `(q^2 - q + 1) / r`. The ladder divides by the discriminant of its
element, so the program ends when the first power is one, that is on the products
of an element of `F_{q^3}` and an element of `F_{q^2}`; on every other element
the result is the power.
-/

open Pbc.Arith Pbc.Gmp Pbc.Algebra

namespace Pbc.Ecc

section Exponents

/-- The first power removes `q + 1` from the exponent of the Frobenius products. -/
private theorem frobenius_exponent {q : ℕ} (positive : 0 < q) :
    q ^ 4 + q ^ 3 = (q ^ 3 - 1) * (q + 1) + (q + 1) := by
  have cube : 1 ≤ q ^ 3 := Nat.one_le_pow _ _ positive
  obtain ⟨t, split⟩ := Nat.exists_eq_add_of_le cube
  rw [show q ^ 4 = q ^ 3 * q by ring, split, Nat.add_sub_cancel_left]
  ring

/-- The two powers make the whole one. -/
theorem unit_exponent {q : ℕ} (positive : 0 < q) :
    (q ^ 3 - 1) * (q + 1) * (q * q - q + 1) = q ^ 6 - 1 := by
  obtain ⟨t, rfl⟩ := Nat.exists_eq_add_of_le' positive
  have square : (t + 1) * (t + 1) - (t + 1) = t * t + t := by
    rw [← Nat.mul_sub_one, Nat.add_sub_cancel]
    ring
  have cube : (t + 1) ^ 3 - 1 = t ^ 3 + 3 * t ^ 2 + 3 * t := by
    rw [show (t + 1) ^ 3 = t ^ 3 + 3 * t ^ 2 + 3 * t + 1 by ring, Nat.add_sub_cancel]
  rw [square, cube]
  symm
  apply Nat.sub_eq_of_eq_add
  ring

/-- The first power in the other order of its factors. -/
private theorem unit_exponent_eq {q : ℕ} (positive : 0 < q) :
    (q ^ 3 - 1) * (q + 1) = (q ^ 2 - 1) * (q ^ 2 + q + 1) := by
  obtain ⟨t, rfl⟩ := Nat.exists_eq_add_of_le' positive
  have square : (t + 1) ^ 2 - 1 = t ^ 2 + 2 * t := by
    rw [show (t + 1) ^ 2 = t ^ 2 + 2 * t + 1 by ring, Nat.add_sub_cancel]
  have cube : (t + 1) ^ 3 - 1 = t ^ 3 + 3 * t ^ 2 + 3 * t := by
    rw [show (t + 1) ^ 3 = t ^ 3 + 3 * t ^ 2 + 3 * t + 1 by ring, Nat.add_sub_cancel]
  rw [square, cube]
  ring

/-- A nonzero element is fixed by a power when the power less one is one. -/
private theorem pow_fixed_iff {M : Type*} [Field M] {x : M} (nonzero : x ≠ 0) {m : ℕ}
    (positive : 0 < m) : x ^ m = x ↔ x ^ (m - 1) = 1 := by
  obtain ⟨k, rfl⟩ := Nat.exists_eq_add_of_le' positive
  rw [Nat.add_sub_cancel, pow_succ, mul_eq_right₀ nonzero]

theorem odd_sq_sub_add_one (q : ℕ) : Odd (q * q - q + 1) := by
  rcases q with _ | t
  · exact odd_one
  · rw [← Nat.mul_sub_one, Nat.add_sub_cancel]
    exact (mul_comm t _ ▸ Nat.even_mul_succ_self t).add_one

end Exponents

variable {F : Type*} [Field F] [Fintype F] [DecidableEq F] [FpMethods F] {poly : Fin 3 → F}
  {nqr : F}

section Coefficients

/-- The data that initialisation stores for embedding degree six. -/
structure MntPairingData.Six (p : MntPairingData poly nqr) (q : ℕ) : Prop where
  degree : p.k = 6
  xpowq : p.xpowq = (⟨fun i => if (i : ℕ) = 1 then 1 else 0⟩ : Polymod poly) ^ q
  xpowq2 : p.xpowq2 = p.xpowq ^ 2
  phikonr : p.phikonr = (q * q - q + 1) / p.r
  nqrinv : FieldMethods.invert (elementFieldToPolymod poly nqr) = .ok p.nqrinv
  nqrinv2 : p.nqrinv2 = p.nqrinv ^ 2

omit [Fintype F] in
/-- Initialisation for embedding degree six, once the nonresidue is inverted. -/
theorem pairingInitDParam_eq (a b : F) (q r : ℕ) {v : Polymod poly}
    (inverted : FieldMethods.invert (elementFieldToPolymod poly nqr) = .ok v) :
    pairingInitDParam poly nqr a b q r 6 = .ok ⟨a, b, r, 6, v, FieldMethods.square v,
      (⟨fun i => if (i : ℕ) = 1 then 1 else 0⟩ : Polymod poly) ^ q,
      FieldMethods.square ((⟨fun i => if (i : ℕ) = 1 then 1 else 0⟩ : Polymod poly) ^ q),
      (q * q - q + 1) / r, 0⟩ := by
  simp only [pairingInitDParam, inverted, elementPowMpz_ok, bind, Except.bind, pure, Except.pure,
    if_true, Nat.reduceMod, zero_ne_one, if_false]

omit [Fintype F] in
theorem pairingInitDParam_six {a b : F} {q r : ℕ} {p : MntPairingData poly nqr}
    (initialised : pairingInitDParam poly nqr a b q r 6 = .ok p) :
    p.a = a ∧ p.b = b ∧ p.r = r ∧ p.Six q := by
  cases inverted : FieldMethods.invert (elementFieldToPolymod poly nqr) with
  | error e => simp [pairingInitDParam, inverted, bind, Except.bind] at initialised
  | ok v =>
    rw [pairingInitDParam_eq a b q r inverted] at initialised
    obtain rfl := Except.ok.inj initialised
    exact ⟨rfl, rfl, rfl, rfl, rfl, (FieldMethods.square_eq _).trans (sq _).symm, rfl, inverted,
      (FieldMethods.square_eq _).trans (sq _).symm⟩

end Coefficients

/-- `qpower` applies Frobenius to the coordinates, with the sign of its argument. -/
theorem qpower_eq {p : MntPairingData poly nqr} (six : p.Six (Fintype.card F)) (f : DGt poly nqr)
    (sign : Bool) :
    qpower p f sign = ⟨f.re ^ Fintype.card F,
      if sign then f.im ^ Fintype.card F else -f.im ^ Fintype.card F⟩ := by
  have at1 (e : Polymod poly) : coeffAt e.coeff 1 = e.coeff 1 := rfl
  have at2 (e : Polymod poly) : coeffAt e.coeff 2 = e.coeff 2 := rfl
  have at0 (e : Polymod poly) : coeffAt e.coeff 0 = e.coeff 0 := rfl
  have xpowq : p.xpowq = extensionVariable poly ^ Fintype.card F := six.xpowq
  have power (e : Polymod poly) : e ^ Fintype.card F = algebraMap F _ (e.coeff 0) +
      algebraMap F _ (e.coeff 1) * extensionVariable poly ^ Fintype.card F +
      algebraMap F _ (e.coeff 2) * (extensionVariable poly ^ Fintype.card F) ^ 2 := by
    rw [polymod_pow_card (by decide) e, Fin.sum_univ_three]
    simp
  cases sign with
  | true =>
    simp only [qpower, if_true, at0, at1, at2, six.xpowq2, xpowq, addConstant_eq,
      Polymod.polymodConstMul_eq, Polymod.polymodAdd_eq]
    ext1
    · simp only
      rw [power f.re]
      ring
    · simp only
      rw [power f.im]
      ring
  | false =>
    simp only [qpower, Bool.false_eq_true, if_false, at0, at1, at2, six.xpowq2, xpowq,
      addConstant_eq, Polymod.polymodConstMul_eq, Polymod.polymodAdd_eq, Polymod.polymodNeg_eq,
      Polymod.polymodSub_eq, map_neg]
    ext1
    · simp only
      rw [power f.re]
      ring
    · simp only
      rw [power f.im]
      ring

section Power

variable [irreducible : Fact (Irreducible (monicPoly poly))] (two : (2 : F) ≠ 0)
  (nonresidue : ¬IsSquare nqr)

include two nonresidue

omit [DecidableEq F] [FpMethods F] in
theorem dGt_nonresidue :
    Fact (∀ r : Polymod poly, r ^ 2 ≠ elementFieldToPolymod poly nqr + 0 * r) :=
  odd_extension_nonresidue two nonresidue (by decide)

omit [DecidableEq F] [FpMethods F] in
theorem dGt_pow_card_three (f : DGt poly nqr) : f ^ Fintype.card F ^ 3 = star f :=
  odd_extension_pow_card two nonresidue (by decide) f

omit [DecidableEq F] [FpMethods F] in
theorem dGt_pow_order {f : DGt poly nqr} (nonzero : f ≠ 0) : f ^ (Fintype.card F ^ 6 - 1) = 1 :=
  odd_extension_pow_order two nonresidue (by decide) nonzero

/-- The Frobenius part leaves the power `(q^3 - 1) (q + 1)` for the ladder. -/
theorem ccTatepower_unit {p : MntPairingData poly nqr} (six : p.Six (Fintype.card F))
    {f : DGt poly nqr} (nonzero : f ≠ 0) :
    ccTatepower p f =
      (lucasEven (f ^ ((Fintype.card F ^ 3 - 1) * (Fintype.card F + 1))) p.phikonr).map
        fun out => (out, f ^ ((Fintype.card F ^ 3 - 1) * (Fintype.card F + 1))) := by
  have : Fact (∀ r : Polymod poly, r ^ 2 ≠ elementFieldToPolymod poly nqr + 0 * r) :=
    dGt_nonresidue two nonresidue
  have conjugate : (⟨f.re, -f.im⟩ : DGt poly nqr) = f ^ Fintype.card F ^ 3 := by
    rw [dGt_pow_card_three two nonresidue]
    ext
    · simp
    · simp
  have positive : qpower p f true = f ^ Fintype.card F ^ 4 := by
    rw [qpower_eq six, show Fintype.card F ^ 4 = Fintype.card F * Fintype.card F ^ 3 by ring,
      pow_mul, dGt_pow_card two nonresidue, dGt_pow_card_three two nonresidue]
    ext
    · simp
    · simp
  have negative : qpower p f false = f ^ Fintype.card F := by
    rw [qpower_eq six, dGt_pow_card two nonresidue]
    rfl
  have below : f ^ Fintype.card F * f ≠ 0 := mul_ne_zero (pow_ne_zero _ nonzero) nonzero
  have quotient : f ^ Fintype.card F ^ 4 * f ^ Fintype.card F ^ 3 * (f ^ Fintype.card F * f)⁻¹ =
      f ^ ((Fintype.card F ^ 3 - 1) * (Fintype.card F + 1)) := by
    rw [← pow_add, frobenius_exponent Fintype.card_pos, pow_add, ← pow_succ,
      mul_inv_cancel_right₀ (pow_ne_zero _ nonzero)]
  simp only [ccTatepower, if_pos six.degree, conjugate, positive, negative, fqMul_eq,
    fqInvert_eq below, bind, Except.bind, quotient]
  cases lucasEven (f ^ ((Fintype.card F ^ 3 - 1) * (Fintype.card F + 1))) p.phikonr <;> rfl

omit [DecidableEq F] [FpMethods F] in
/-- The Frobenius part lies in the base only when it is one. -/
theorem unit_im_eq_zero_iff {f : DGt poly nqr} (nonzero : f ≠ 0) :
    (f ^ ((Fintype.card F ^ 3 - 1) * (Fintype.card F + 1))).im = 0 ↔
      f ^ ((Fintype.card F ^ 3 - 1) * (Fintype.card F + 1)) = 1 := by
  have norm := odd_extension_norm two nonresidue (by decide : Odd 3) nonzero (Fintype.card F + 1)
  have order : (f ^ ((Fintype.card F ^ 3 - 1) * (Fintype.card F + 1))) ^
      (Fintype.card F * Fintype.card F - Fintype.card F + 1) = 1 := by
    rw [← pow_mul, unit_exponent Fintype.card_pos, dGt_pow_order two nonresidue nonzero]
  generalize f ^ ((Fintype.card F ^ 3 - 1) * (Fintype.card F + 1)) = u at *
  constructor
  · intro real
    rw [real, zero_mul, zero_mul, sub_zero] at norm
    rcases mul_self_eq_one_iff.mp norm with one | minus
    · ext1
      · exact one
      · exact real
    · have negative : u = -1 := by
        ext1
        · exact minus
        · exact real.trans neg_zero.symm
      rw [negative, (odd_sq_sub_add_one _).neg_one_pow] at order
      have equal := congrArg QuadraticAlgebra.re order
      rw [QuadraticAlgebra.re_neg, QuadraticAlgebra.re_one] at equal
      have doubled : (2 : Polymod poly) = 0 := by linear_combination -equal
      exact absurd doubled (two_ne_zero_extension two)
  · rintro rfl
    rfl

/-- Where the Frobenius part is not one the result is the whole power. -/
theorem ccTatepower_ok {p : MntPairingData poly nqr} (six : p.Six (Fintype.card F))
    (divides : p.r ∣ Fintype.card F * Fintype.card F - Fintype.card F + 1) {f : DGt poly nqr}
    (nonzero : f ≠ 0)
    (regular : f ^ ((Fintype.card F ^ 3 - 1) * (Fintype.card F + 1)) ≠ 1) :
    ccTatepower p f = .ok (f ^ ((Fintype.card F ^ 6 - 1) / p.r),
      f ^ ((Fintype.card F ^ 3 - 1) * (Fintype.card F + 1))) := by
  have odd : Odd p.phikonr := by
    rw [six.phikonr]
    exact (odd_sq_sub_add_one _).of_dvd_nat (Nat.div_dvd_of_dvd divides)
  have power : (f ^ ((Fintype.card F ^ 3 - 1) * (Fintype.card F + 1))) ^ p.phikonr =
      f ^ ((Fintype.card F ^ 6 - 1) / p.r) := by
    rw [← pow_mul, six.phikonr, ← Nat.mul_div_assoc _ divides, unit_exponent Fintype.card_pos]
  rw [ccTatepower_unit two nonresidue six nonzero,
    lucasEven_ok (two_ne_zero_extension two) (residue_ne_zero nonresidue)
    (odd_extension_norm two nonresidue (by decide : Odd 3) nonzero (Fintype.card F + 1)) odd
    (fun real => regular ((unit_im_eq_zero_iff two nonresidue nonzero).mp real)), power]
  rfl

/-- Where the Frobenius part is one the program ends. -/
theorem ccTatepower_exit {p : MntPairingData poly nqr} (six : p.Six (Fintype.card F))
    {f : DGt poly nqr} (nonzero : f ≠ 0)
    (degenerate : f ^ ((Fintype.card F ^ 3 - 1) * (Fintype.card F + 1)) = 1) :
    ccTatepower p f = .error .divisionByZero := by
  rw [ccTatepower_unit two nonresidue six nonzero, lucasEven_exit (two_ne_zero_extension two)
    (odd_extension_norm two nonresidue (by decide : Odd 3) nonzero (Fintype.card F + 1)) _
    ((unit_im_eq_zero_iff two nonresidue nonzero).mpr degenerate) polymodInvert_zero]
  rfl

omit [DecidableEq F] [FpMethods F] in
/-- The Frobenius part is one on the products of an element of `F_{q^3}` and one
of `F_{q^2}`: since `q^2 + q + 1 = q (q + 1) + 1`, the element itself splits. -/
theorem unit_eq_one_iff {f : DGt poly nqr} (nonzero : f ≠ 0) :
    f ^ ((Fintype.card F ^ 3 - 1) * (Fintype.card F + 1)) = 1 ↔
      ∃ g h : DGt poly nqr, f = g * h ∧ g.im = 0 ∧ h ^ Fintype.card F ^ 2 = h := by
  have : Fact (∀ r : Polymod poly, r ^ 2 ≠ elementFieldToPolymod poly nqr + 0 * r) :=
    dGt_nonresidue two nonresidue
  have real (g : DGt poly nqr) : g.im = 0 ↔ g ^ Fintype.card F ^ 3 = g := by
    rw [dGt_pow_card_three two nonresidue]
    constructor
    · intro zero
      ext1
      · simp
      · simp [zero]
    · intro fixed
      have im := congrArg QuadraticAlgebra.im fixed
      rw [QuadraticAlgebra.im_star] at im
      have doubled : 2 * g.im = 0 := by linear_combination -im
      exact (mul_eq_zero.mp doubled).resolve_left (two_ne_zero_extension two)
  have cube : 0 < Fintype.card F ^ 3 := Nat.pow_pos Fintype.card_pos
  have square : 0 < Fintype.card F ^ 2 := Nat.pow_pos Fintype.card_pos
  constructor
  · intro one
    refine ⟨(f ^ (Fintype.card F * (Fintype.card F + 1)))⁻¹,
      f ^ (Fintype.card F ^ 2 + Fintype.card F + 1), ?_, (real _).mpr ?_, ?_⟩
    · rw [show Fintype.card F ^ 2 + Fintype.card F + 1 =
        Fintype.card F * (Fintype.card F + 1) + 1 by ring, pow_succ,
        inv_mul_cancel_left₀ (pow_ne_zero _ nonzero)]
    · rw [inv_pow, inv_inj, pow_fixed_iff (pow_ne_zero _ nonzero) cube, ← pow_mul,
        show Fintype.card F * (Fintype.card F + 1) * (Fintype.card F ^ 3 - 1) =
          (Fintype.card F ^ 3 - 1) * (Fintype.card F + 1) * Fintype.card F by ring, pow_mul, one,
        one_pow]
    · rw [pow_fixed_iff (pow_ne_zero _ nonzero) square, ← pow_mul, mul_comm,
        ← unit_exponent_eq Fintype.card_pos, one]
  · rintro ⟨g, h, rfl, base, fixed⟩
    obtain ⟨left, right⟩ := mul_ne_zero_iff.mp nonzero
    rw [mul_pow, pow_mul, (pow_fixed_iff left cube).mp ((real g).mp base), one_pow, one_mul,
      unit_exponent_eq Fintype.card_pos, pow_mul, (pow_fixed_iff right square).mp fixed, one_pow]

/-- `cc_tatepower` returns the power `(q^6 - 1) / r` of a nonzero element, whether
or not it writes over its argument, exactly when the element is no product of an
element of `F_{q^3}` and an element of `F_{q^2}`. -/
theorem ccTatepowerAt_eq_pow_iff {ι : Type*} [DecidableEq ι] {a b : F} {r : ℕ}
    {p : MntPairingData poly nqr}
    (initialised : pairingInitDParam poly nqr a b (Fintype.card F) r 6 = .ok p)
    (divides : r ∣ Fintype.card F * Fintype.card F - Fintype.card F + 1)
    (objects : ι → DGt poly nqr) (out inn : ι) (nonzero : objects inn ≠ 0) :
    (∃ after, ccTatepowerAt p objects out inn = .ok after ∧
        after out = objects inn ^ ((Fintype.card F ^ 6 - 1) / r)) ↔
      ¬∃ g h : DGt poly nqr, objects inn = g * h ∧ g.im = 0 ∧ h ^ Fintype.card F ^ 2 = h := by
  obtain ⟨-, -, rfl, six⟩ := pairingInitDParam_six initialised
  rw [← unit_eq_one_iff two nonresidue nonzero]
  constructor
  · rintro ⟨after, returned, -⟩ degenerate
    rw [ccTatepowerAt, ccTatepower_exit two nonresidue six nonzero degenerate] at returned
    cases returned
  · intro regular
    refine ⟨_, by rw [ccTatepowerAt, ccTatepower_ok two nonresidue six divides nonzero regular]; rfl,
      Function.update_self _ _ _⟩

end Power

/-- The small parameters are what initialisation leaves. -/
theorem smallD_initialised :
    pairingInitDParam (![1, 1, 0] : Fin 3 → ZMod 5) 2 2 1 (Fintype.card (ZMod 5)) 7 6 =
      .ok smallD := by
  have nonzero : elementFieldToPolymod (![1, 1, 0] : Fin 3 → ZMod 5) 2 ≠ 0 := by decide
  have inverse : elementFieldToPolymod (![1, 1, 0] : Fin 3 → ZMod 5) 2 * ⟨![3, 0, 0]⟩ = 1 := by
    decide
  have inverted := InvertsNonzero.invert_ok nonzero
  rw [← eq_inv_of_mul_eq_one_right inverse] at inverted
  rw [ZMod.card, pairingInitDParam_eq 2 1 5 7 inverted, Except.ok.injEq, smallD,
    MntPairingData.mk.injEq]
  decide

/-- The power of `x + s`, written over its argument. -/
theorem ccTatepowerAt_small :
    (∃ after, ccTatepowerAt smallD (fun _ : Unit => ⟨⟨![0, 1, 0]⟩, ⟨![1, 0, 0]⟩⟩) () () = .ok after ∧
        after () = (⟨⟨![0, 1, 0]⟩, ⟨![1, 0, 0]⟩⟩ : DGt (![1, 1, 0] : Fin 3 → ZMod 5) 2) ^
          ((Fintype.card (ZMod 5) ^ 6 - 1) / 7)) ↔
      ¬∃ g h : DGt (![1, 1, 0] : Fin 3 → ZMod 5) 2, ⟨⟨![0, 1, 0]⟩, ⟨![1, 0, 0]⟩⟩ = g * h ∧ g.im = 0 ∧
        h ^ Fintype.card (ZMod 5) ^ 2 = h :=
  ccTatepowerAt_eq_pow_iff (by decide) nonresidue_five smallD_initialised (by decide)
    (fun _ => ⟨⟨![0, 1, 0]⟩, ⟨![1, 0, 0]⟩⟩) () () (by decide)

/-- On one, the value of a pairing with an identity, the program ends. -/
theorem ccTatepowerAt_one_exit :
    ¬∃ after, ccTatepowerAt smallD (fun _ : Unit => 1) () () = .ok after ∧
      after () = (1 : DGt (![1, 1, 0] : Fin 3 → ZMod 5) 2) ^
        ((Fintype.card (ZMod 5) ^ 6 - 1) / 7) := by
  rintro ⟨after, returned, -⟩
  have ended : (ccTatepower smallD 1).toOption.isNone := by decide
  rw [ccTatepowerAt] at returned
  cases result : ccTatepower smallD 1 with
  | error e =>
    rw [result] at returned
    cases returned
  | ok values =>
    rw [result] at ended
    cases ended

end Pbc.Ecc
