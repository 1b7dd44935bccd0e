import Pbc.Ecc.EEllnetMiller
import Pbc.Ecc.EMiller
import Pbc.Elliptic.RationalTate

/-!
# Bilinearity of type E

All three methods return the power `(q - 1) / r` of a value with the symbol of the lines along
the multiples of the first point. That symbol is linear in both points, as long as the second
one is outside the multiples of the first.
-/

open Pbc.Arith Pbc.Algebra Pbc.Elliptic WeierstrassCurve.Affine

namespace Pbc.Ecc

section Call

variable {F : Type*} [Field F] [DecidableEq F] [FpMethods F]

/-- The fraction of a Miller loop is defined: the shifted point is finite, and no line or
vertical vanishes at it or at the offset. The elliptic net needs no fraction. -/
def EMethods.Defined (methods : EMethods) (p : EPairingData F) (in1 in2 : PointS F) : Prop :=
  methods.ellnet = false → ∃ QR g, curveMul p.a curveInit in2 p.R = .ok QR ∧ QR.infFlag = false ∧
    eMillerAffineFraction p in1 QR p.R = .ok g ∧ EFraction.Defined g

/-- Either loop hands over the quotient of the fraction of the affine one. -/
theorem eMillerFn_ok (two : (2 : F) ≠ 0) {p : EPairingData F} {P : (short p.a p.b).Point} {r : ℕ}
    (odd : Odd r) (proper : r ≠ 1) (order : addOrderOf P = r) {in1 QR : PointS F}
    (represents : in1.Represents P) {g : EFraction F}
    (fraction : eMillerAffineFraction p in1 QR p.R = .ok g) (defined : g.Defined)
    (methods : EMethods) : eMillerFn methods p in1 QR p.R = .ok (g.v / g.vd) := by
  obtain ⟨f, h, proj, affine, scales⟩ :=
    eMillerFraction_scales two p odd proper order represents QR p.R
  obtain rfl := Except.ok.inj (affine.symm.trans fraction)
  rw [div_eq_mul_inv, ← zpInvert_eq defined.denominator]
  cases method : methods.miller with
  | miller =>
    simp only [eMillerFn, method, eMillerProj, proj, bind, Except.bind, pure, Except.pure]
    rw [scales.quotient defined.denominator]
  | millerAffine =>
    simp only [eMillerFn, method, eMillerAffine, affine, bind, Except.bind, pure, Except.pure]

end Call

section Values

variable {F : Type*} [Field F] [DecidableEq F] [FpMethods F] [Fintype F] {p : EPairingData F}
  {r : ℕ} (two : (2 : F) ≠ 0) (odd : Odd r) (large : 7 ≤ r) (divides : r ∣ Fintype.card F - 1)
  (exponent : p.phikonr = (Fintype.card F - 1) / r)
  (form : (r : ℤ) = 2 ^ p.exp2 + p.sign1 * 2 ^ p.exp1 + p.sign0)
  (unit1 : p.sign1 = 1 ∨ p.sign1 = -1) (unit0 : p.sign0 = 1 ∨ p.sign0 = -1)
  {P R : (short p.a p.b).Point} (order : addOrderOf P = r) (finite : R ≠ 0)
  (offset : p.R.Represents R) {Q : FinitePoint p.a p.b} (outside : ∀ k : ℤ, k • P ≠ Q.point)
  {in1 in2 : PointS F} (represents1 : in1.Represents P) (represents2 : in2.Represents Q.point)

include two large exponent form unit1 unit0 order finite offset represents1 represents2

/-- Each method returns the symbol of the lines, wherever it is defined. -/
theorem ePairingMap_symbol {methods : EMethods} (defined : methods.Defined p in1 in2) :
    ePairingMap methods p r in1 in2 =
      .ok ((Q.cocycle (ResidueSymbol.power F odd divides) (Q.avoids_of_outside outside)).power 1 r :
        Fˣ) := by
  obtain ⟨x, y, on, point, axis⟩ := exists_nsmul_eq_some odd order one_pos (by omega)
  rw [one_nsmul] at point
  subst point
  have coordinates1 := (PointS.represents_some_iff _ _).mp represents1
  have coordinates2 := (PointS.represents_some_iff _ _).mp represents2
  subst coordinates1 coordinates2
  cases method : methods.ellnet with
  | true =>
    obtain ⟨nonzero, net⟩ := ePairingEllnetValue_symbol outside odd large order
      (mul_ne_zero two axis) (ResidueSymbol.power F odd divides) p rfl rfl
    rw [ePairingMap, if_pos method, ePairingEllnet, exponent, ← net,
      ResidueSymbol.power_of odd divides nonzero]
  | false =>
    obtain ⟨QR, g, added, finiteQR, fraction, regular⟩ := defined method
    obtain ⟨Y, rfl, held⟩ := PointS.exists_finitePoint offset finite
    have sum := curveMul_ok two curveInit represents2 offset
    have result := Except.ok.inj (sum.symm.trans added)
    have shifted : Q.point + Y.point ≠ 0 := by
      intro zero
      rw [zero] at result
      subst result
      cases finiteQR
    obtain ⟨T, total, heldT⟩ := PointS.exists_finitePoint
      (PointS.assign_represents curveInit (Q.point + Y.point)) shifted
    obtain rfl := heldT.symm.trans result
    obtain ⟨h, again, symbol⟩ := eMillerAffineFraction_symbol two p (secant total.symm)
      (ResidueSymbol.power F odd divides) (Q.avoids_of_outside outside) large order form unit1 unit0
      represents1
    rw [held] at fraction
    obtain rfl := Except.ok.inj (again.symm.trans fraction)
    rw [← held] at fraction
    have value := eMillerFn_ok two odd (by omega) order represents1 fraction regular methods
    rw [ePairingMap, method, if_neg Bool.false_ne_true, ePairing, ← symbol regular,
      ResidueSymbol.power_of odd divides (div_ne_zero regular.numerator regular.denominator),
      ← exponent]
    simp only [added, value, bind, Except.bind, pure, Except.pure]

end Values

section Bilinear

/-- The proper multiples of a point of prime order outside a subgroup are outside. -/
theorem nsmul_not_mem {A : Type*} [AddCommGroup A] {H : AddSubgroup A} {r : ℕ} (prime : r.Prime)
    {Q : A} (whole : r • Q = 0) (outside : Q ∉ H) {n : ℕ} (positive : 0 < n) (bounded : n < r) :
    n • Q ∉ H := by
  intro inside
  have coprime : Nat.gcd n r = 1 := (Nat.coprime_of_lt_prime positive.ne' bounded prime).symm
  have bezout := Nat.gcd_eq_gcd_ab n r
  apply outside
  have combination : Q = Nat.gcdA n r • n • Q := by
    have split := congrArg (· • Q) bezout
    simp only [coprime, Nat.cast_one, one_zsmul, add_zsmul] at split
    rw [mul_comm (n : ℤ), mul_comm (r : ℤ), mul_smul, mul_smul, natCast_zsmul, natCast_zsmul, whole,
      zsmul_zero, add_zero] at split
    exact split
  rw [combination]
  exact AddSubgroup.zsmul_mem H inside _

variable {F : Type*} [Field F] [DecidableEq F] [FpMethods F] [Fintype F] {h r : ℕ}
  (card : Fintype.card F = h * r ^ 2 + 1)

include card

end Bilinear

section Small

private local instance primeBilinearE : Fact (Nat.Prime 197) := ⟨by norm_num⟩

/-- A curve over `F_197` with all its points of order 7, and the offset `(0, 77)`. -/
def bilinearE : EPairingData (ZMod 197) :=
  pairingInitEParam 2 19 (4 * 7 ^ 2 + 1) 7 2 1 1 1 ⟨false, 0, 77⟩

/-- A point of order 7. -/
def bilinearEP : (short (2 : ZMod 197) 19).Point :=
  .some 10 60 (short_nonsingular (by decide) (by decide) (by decide))

/-- Another one. -/
def bilinearEQ : (short (2 : ZMod 197) 19).Point :=
  .some 72 80 (short_nonsingular (by decide) (by decide) (by decide))

/-- The offset. -/
def bilinearER : (short (2 : ZMod 197) 19).Point :=
  .some 0 77 (short_nonsingular (by decide) (by decide) (by decide))

theorem bilinearEP_represents : PointS.Represents ⟨false, 10, 60⟩ bilinearEP := rfl

theorem bilinearEQ_represents : PointS.Represents ⟨false, 72, 80⟩ bilinearEQ := rfl

theorem bilinearER_represents : PointS.Represents ⟨false, 0, 77⟩ bilinearER := rfl

/-- What the code computes on the small parameters: the seventh powers are the point at infinity,
no power of `P` has the abscissa of `Q`, and the affine fraction has no zero and no pole. -/
private theorem bilinearE_computed :
    (curvePowMpz (2 : ZMod 197) curveInit ⟨false, 10, 60⟩ 7).toOption.any PointS.infFlag = true ∧
    (curvePowMpz (2 : ZMod 197) curveInit ⟨false, 72, 80⟩ 7).toOption.any PointS.infFlag = true ∧
    (∀ n < 7, (curvePowMpz (2 : ZMod 197) curveInit ⟨false, 10, 60⟩ n).toOption.any
      (fun s => s.infFlag || s.x != 72) = true) ∧
    (curveMul bilinearE.a curveInit ⟨false, 72, 80⟩ bilinearE.R).toOption.any (fun QR =>
      (eMillerAffineFraction bilinearE ⟨false, 10, 60⟩ QR bilinearE.R).toOption.any fun g =>
        QR.infFlag = false ∧ g.v ≠ 0 ∧ g.vd ≠ 0) = true := by decide

theorem addOrderOf_bilinearEP : addOrderOf bilinearEP = 7 := by
  exact addOrderOf_eq_of_curvePowMpz (by norm_num) (by decide) bilinearEP_represents rfl
    bilinearE_computed.1

theorem addOrderOf_bilinearEQ : addOrderOf bilinearEQ = 7 := by
  exact addOrderOf_eq_of_curvePowMpz (by norm_num) (by decide) bilinearEQ_represents rfl
    bilinearE_computed.2.1

theorem bilinearEQ_outside : bilinearEQ ∉ AddSubgroup.zmultiples bilinearEP := by
  intro multiple
  obtain ⟨n, bounded, equal⟩ : ∃ n < 7, n • bilinearEP = bilinearEQ := by
    have finite : IsOfFinAddOrder bilinearEP := by
      rw [← addOrderOf_pos_iff, addOrderOf_bilinearEP]
      decide
    rw [finite.mem_zmultiples_iff_mem_range_addOrderOf, Finset.mem_image] at multiple
    obtain ⟨n, inside, equal⟩ := multiple
    rw [Finset.mem_range, addOrderOf_bilinearEP] at inside
    exact ⟨n, inside, equal⟩
  have multiple := bilinearE_computed.2.2.1 n bounded
  rw [curvePowMpz_ok (by decide) curveInit bilinearEP_represents n, equal] at multiple
  cases multiple

private theorem bilinearE_defined :
    EMethods.Defined ⟨.miller, false⟩ bilinearE ⟨false, 10, 60⟩ ⟨false, 72, 80⟩ := by
  have value := bilinearE_computed.2.2.2
  intro _
  cases added : curveMul bilinearE.a curveInit ⟨false, 72, 80⟩ bilinearE.R with
  | error e =>
    rw [added] at value
    cases value
  | ok QR =>
    rw [added] at value
    replace value : (eMillerAffineFraction bilinearE ⟨false, 10, 60⟩ QR bilinearE.R).toOption.any
        (fun g => QR.infFlag = false ∧ g.v ≠ 0 ∧ g.vd ≠ 0) = true := value
    cases fraction : eMillerAffineFraction bilinearE ⟨false, 10, 60⟩ QR bilinearE.R with
    | error e =>
      rw [fraction] at value
      cases value
    | ok g =>
      rw [fraction] at value
      obtain ⟨finite, numerator, denominator⟩ := of_decide_eq_true value
      exact ⟨QR, g, rfl, finite, fraction, numerator, denominator⟩

end Small

end Pbc.Ecc
