import Pbc.Ecc.EEllnet
import Pbc.Ecc.EOffset

/-!
# The two pairings of type E

The Miller loop depends on a random offset, the elliptic net knows none. Both values have
the symbol of the lines along the multiples of the first point, so the final powering maps
them to one root of unity.
-/

open Pbc.Arith Pbc.Algebra Pbc.Elliptic WeierstrassCurve.Affine

namespace Pbc.Ecc

section Objects

variable {F : Type*} [Field F] {a b : F}

/-- An object that holds a nonzero point. -/
theorem PointS.exists_finitePoint {A : (short a b).Point} {s : PointS F}
    (represents : s.Represents A) (finite : A ≠ 0) :
    ∃ X : FinitePoint a b, X.point = A ∧ s = .ofFinite X := by
  cases A with
  | zero => exact absurd rfl finite
  | some x y on =>
    rw [PointS.represents_some_iff] at represents
    exact ⟨⟨x, y, on⟩, rfl, represents⟩

end Objects

section Sizes

variable {F : Type*} [Field F] [Fintype F] {r : ℕ}

/-- A field of odd prime size has odd characteristic. -/
private theorem two_ne_zero_of_prime {q : ℕ} (size : Fintype.card F = q) (prime : q.Prime)
    (larger : q ≠ 2) : (2 : F) ≠ 0 := by
  apply Ring.two_ne_zero
  intro even
  rw [FiniteField.even_card_iff_char_two, size] at even
  have odd := prime.eq_two_or_odd.resolve_left larger
  omega

/-- Values of one symbol have one power. -/
theorem pow_eq_of_symbol (odd : Odd r) (divides : r ∣ Fintype.card F - 1) {v w : F} (left : v ≠ 0)
    (right : w ≠ 0)
    (symbols : (ResidueSymbol.power F odd divides).of v = (ResidueSymbol.power F odd divides).of w) :
    v ^ ((Fintype.card F - 1) / r) = w ^ ((Fintype.card F - 1) / r) := by
  rw [← ResidueSymbol.power_of odd divides left, symbols, ResidueSymbol.power_of odd divides right]

end Sizes

section Call

variable {F : Type*} [Field F] [DecidableEq F] [FpMethods F] {p : EPairingData F}
  {in1 in2 QR : PointS F} {g : EFraction F}

/-- A call of `e_pairing` with the affine loop, from the fraction of the loop. -/
theorem ePairing_millerAffine (added : curveMul p.a curveInit in2 p.R = .ok QR)
    (fraction : eMillerAffineFraction p in1 QR p.R = .ok g) (denominator : g.vd ≠ 0) :
    ePairing ⟨.millerAffine, false⟩ p in1 in2 = .ok ((g.v / g.vd) ^ p.phikonr) := by
  rw [ePairing, added, div_eq_mul_inv, ← zpInvert_eq denominator]
  simp only [eMillerFn, eMillerAffine, fraction, bind, Except.bind]
  rfl

end Call

section Agreement

variable {F : Type*} [Field F] [DecidableEq F] [FpMethods F] [Fintype F] {h r : ℕ}
  (card : Fintype.card F = h * r ^ 2 + 1)

include card

/-- The offset does not matter, and both values of the option `method` return one element,
wherever the fraction of the Miller loop is defined. -/
theorem ePairing_eq_ellnet (prime : (h * r ^ 2 + 1).Prime) (primeOrder : r.Prime) (large : 7 ≤ r)
    {exp2 exp1 : ℕ} {sign1 sign0 : ℤ} (form : (r : ℤ) = 2 ^ exp2 + sign1 * 2 ^ exp1 + sign0)
    (unit1 : sign1 = 1 ∨ sign1 = -1) (unit0 : sign0 = 1 ∨ sign0 = -1) {a b : F}
    {P Q R : (short a b).Point} (order : addOrderOf P = r) (outside : Q ∉ AddSubgroup.zmultiples P)
    (finite : R ≠ 0) (shifted : Q + R ≠ 0) {in1 in2 offset : PointS F}
    (represents1 : in1.Represents P) (represents2 : in2.Represents Q)
    (representsR : offset.Represents R) {p : EPairingData F}
    (init : pairingInitEParam a b (h * r ^ 2 + 1) r exp2 exp1 sign1 sign0 offset = p)
    (methods : EMethods) :
    ∃ QR g, curveMul p.a curveInit in2 p.R = .ok QR ∧ eMillerAffineFraction p in1 QR p.R = .ok g ∧
      (g.v ≠ 0 → g.vd ≠ 0 → ∃ w,
        ePairingMap (ePairingOptionSet methods "method" "miller-affine") p r in1 in2 = .ok w ∧
        ePairingMap (ePairingOptionSet methods "method" "shipsey-stange") p r in1 in2 = .ok w) := by
  subst init
  have positive : h ≠ 0 := by
    rintro rfl
    norm_num at prime
  have larger : h * r ^ 2 + 1 ≠ 2 := by nlinarith [Nat.pos_of_ne_zero positive]
  have two := two_ne_zero_of_prime card prime larger
  have odd : Odd r := primeOrder.odd_of_ne_two (by omega)
  have divides : r ∣ Fintype.card F - 1 := by
    rw [card, Nat.add_sub_cancel, pow_two, ← mul_assoc]
    exact Nat.dvd_mul_left r _
  have away : Q ≠ 0 := by
    rintro rfl
    exact outside (AddSubgroup.zero_mem _)
  obtain ⟨X, rfl, rfl⟩ := PointS.exists_finitePoint represents2 away
  obtain ⟨Y, rfl, rfl⟩ := PointS.exists_finitePoint representsR finite
  obtain ⟨T, total, sum⟩ := PointS.exists_finitePoint
    (PointS.assign_represents curveInit (X.point + Y.point)) shifted
  obtain ⟨x, y, on, point, axis⟩ := exists_nsmul_eq_some odd order one_pos (by omega)
  rw [one_nsmul] at point
  subst point
  have coordinates := (PointS.represents_some_iff _ _).mp represents1
  subst coordinates
  have multiples (k : ℤ) : k • (.some x y on : (short a b).Point) ≠ X.point := fun equal =>
    outside (AddSubgroup.mem_zmultiples_iff.mpr ⟨k, equal⟩)
  obtain ⟨nonzero, net⟩ := ePairingEllnetValue_symbol multiples odd large order
    (mul_ne_zero two axis) (ResidueSymbol.power F odd divides)
    (pairingInitEParam a b (h * r ^ 2 + 1) r exp2 exp1 sign1 sign0 (.ofFinite Y)) rfl rfl
  obtain ⟨g, fraction, defined⟩ := eMillerAffineFraction_symbol two
    (pairingInitEParam a b (h * r ^ 2 + 1) r exp2 exp1 sign1 sign0 (.ofFinite Y))
    (secant total.symm) (ResidueSymbol.power F odd divides) (X.avoids_of_outside multiples) large
    order form unit1 unit0 represents1
  have added : curveMul a curveInit (.ofFinite X) (.ofFinite Y) = .ok (.ofFinite T) := by
    rw [← sum]
    exact curveMul_ok two curveInit (PointS.ofFinite_represents X) (PointS.ofFinite_represents Y)
  refine ⟨_, g, added, fraction, fun numerator denominator =>
    ⟨_, ePairing_millerAffine added fraction denominator, congrArg Except.ok ?_⟩⟩
  have power := pow_eq_of_symbol odd divides (div_ne_zero numerator denominator) nonzero
    ((defined ⟨numerator, denominator⟩).trans net.symm)
  rw [card] at power
  exact power.symm

end Agreement

section Small

private local instance primeShifted : Fact (Nat.Prime 197) := ⟨by norm_num⟩

/-- A curve over `F_197` with the offset `(2, 49)`, for the order `7 = 2^2 + 2 + 1`. -/
def smallShiftedE : EPairingData (ZMod 197) :=
  pairingInitEParam 1 27 (4 * 7 ^ 2 + 1) 7 2 1 1 1 ⟨false, 2, 49⟩

private def smallShiftedPoint : (short (1 : ZMod 197) 27).Point :=
  .some 9 78 (short_nonsingular (by decide) (by decide) (by decide))

private def smallShiftedOther : (short (1 : ZMod 197) 27).Point :=
  .some 1 63 (short_nonsingular (by decide) (by decide) (by decide))

private def smallOffset : (short (1 : ZMod 197) 27).Point :=
  .some 2 49 (short_nonsingular (by decide) (by decide) (by decide))

private theorem smallShiftedPoint_represents :
    PointS.Represents ⟨false, 9, 78⟩ smallShiftedPoint := rfl

private theorem smallShiftedOther_represents :
    PointS.Represents ⟨false, 1, 63⟩ smallShiftedOther := rfl

private theorem smallOffset_represents : PointS.Represents ⟨false, 2, 49⟩ smallOffset := rfl

private theorem addOrderOf_smallShiftedPoint : addOrderOf smallShiftedPoint = 7 := by
  exact addOrderOf_eq_of_curvePowMpz (by norm_num) (by decide) smallShiftedPoint_represents rfl
    (by decide)

private theorem smallShiftedOther_outside :
    smallShiftedOther ∉ AddSubgroup.zmultiples smallShiftedPoint := by
  intro multiple
  obtain ⟨k, multiple⟩ := AddSubgroup.mem_zmultiples_iff.mp multiple
  have zero : 7 • smallShiftedOther = 0 := by
    rw [← multiple, smul_comm, addOrderOf_nsmul_self addOrderOf_smallShiftedPoint, zsmul_zero]
  have power := curvePowMpz_ok (by decide) curveInit smallShiftedOther_represents 7
  have finite : (curvePowMpz (1 : ZMod 197) curveInit ⟨false, 1, 63⟩ 7).toOption.any
      (fun s => s.infFlag = false) = true := by decide
  rw [power, zero] at finite
  cases finite

private theorem smallShiftedOther_add : smallShiftedOther + smallOffset ≠ 0 := by
  intro zero
  have sum := curveMul_ok (by decide) curveInit smallShiftedOther_represents smallOffset_represents
  have finite : (curveMul (1 : ZMod 197) curveInit ⟨false, 1, 63⟩ ⟨false, 2, 49⟩).toOption.any
      (fun s => s.infFlag = false) = true := by decide
  rw [sum, zero] at finite
  cases finite

private theorem smallShiftedE_defined {QR : PointS (ZMod 197)} {g : EFraction (ZMod 197)}
    (added : curveMul smallShiftedE.a curveInit ⟨false, 1, 63⟩ smallShiftedE.R = .ok QR)
    (fraction : eMillerAffineFraction smallShiftedE ⟨false, 9, 78⟩ QR smallShiftedE.R = .ok g) :
    g.v ≠ 0 ∧ g.vd ≠ 0 := by
  have value : ((curveMul smallShiftedE.a curveInit ⟨false, 1, 63⟩ smallShiftedE.R).bind fun QR =>
      eMillerAffineFraction smallShiftedE ⟨false, 9, 78⟩ QR smallShiftedE.R).toOption.any
        (fun g => g.v ≠ 0 ∧ g.vd ≠ 0) = true := by decide
  rw [added] at value
  change (eMillerAffineFraction _ _ _ _).toOption.any _ = true at value
  rw [fraction] at value
  exact of_decide_eq_true value

/-- Both methods at two points outside the subgroup. -/
theorem ePairing_eq_ellnet_small : ∃ w,
    ePairingMap (ePairingOptionSet ⟨.miller, true⟩ "method" "miller-affine") smallShiftedE 7
      ⟨false, 9, 78⟩ ⟨false, 1, 63⟩ = .ok w ∧
    ePairingMap (ePairingOptionSet ⟨.miller, true⟩ "method" "shipsey-stange") smallShiftedE 7
      ⟨false, 9, 78⟩ ⟨false, 1, 63⟩ = .ok w := by
  obtain ⟨QR, g, added, fraction, equal⟩ := ePairing_eq_ellnet (h := 4) (ZMod.card 197) (by norm_num)
    (by norm_num) (by norm_num) (by norm_num : ((7 : ℕ) : ℤ) = 2 ^ 2 + 1 * 2 ^ 1 + 1) (.inl rfl)
    (.inl rfl) addOrderOf_smallShiftedPoint smallShiftedOther_outside (R := smallOffset)
    (by rintro ⟨⟩) smallShiftedOther_add smallShiftedPoint_represents smallShiftedOther_represents
    smallOffset_represents (p := smallShiftedE) rfl ⟨.miller, true⟩
  obtain ⟨numerator, denominator⟩ := smallShiftedE_defined added fraction
  exact equal numerator denominator

end Small

end Pbc.Ecc
