import Pbc.Ecc.DTatepower
import Pbc.Ecc.FTatepower
import Pbc.Elliptic.Rescale
import Pbc.Elliptic.Tate

/-!
# The untwisting maps of types D and F

The pairings of these types take their second point from a twist. They multiply its
coordinates by stored inverses and read the products as coefficients of elements of the
target field: the multiple of `s` for type D, the multiples of `x^4` and `x^3` for type F.
These elements are the coordinates of a point of the curve of the first group, and the map
respects the group laws.
-/

open Pbc.Arith Pbc.Elliptic Pbc.Algebra

namespace Pbc.Ecc

section Maps

variable {F : Type*} [Field F]

/-- The second point of `cc_pairing` of type D, `(Qx, Qy s)`. -/
def dUntwist {n : ℕ} {poly : Fin n → F} {nqr : F} (p : MntPairingData poly nqr)
    (in2 : PointS (Polymod poly)) : PointS (DGt poly nqr) :=
  let Qx := in2.x * p.nqrinv
  let Qy := in2.y * p.nqrinv2
  ⟨in2.infFlag, ⟨Qx, 0⟩, ⟨0, Qy⟩⟩

/-- The coefficient of the curve `Etwist` of `pairing_init_f_param`. -/
def fTwistB {beta : F} (alpha : FqData beta) (b : F) : FqData beta :=
  let e1 := b
  let e0 := alpha.re
  let e0 := -e0
  let re := e0 * e1
  let e0 := alpha.im
  let e0 := -e0
  ⟨re, e0 * e1⟩

/-- The second point of `f_pairing`, `(Qx x^4, Qy x^3)`. -/
def fUntwist {beta : F} {alpha : FqData beta} (p : FPairingData (FqData beta))
    (in2 : PointS (FqData beta)) : PointS (Polymod (fPoly alpha)) :=
  let x := in2.x * p.negalphainv
  let y := in2.y * p.negalphainv
  ⟨in2.infFlag, ⟨![0, 0, 0, 0, x, 0]⟩, ⟨![0, 0, 0, y, 0, 0]⟩⟩

end Maps

/-- A map of point objects that sends the points of one curve to points of another and
respects addition. -/
def Untwisting {K L : Type*} [Field K] [Field L] [DecidableEq K] [DecidableEq L] (A B : K)
    (a b : L) (map : PointS K → PointS L) : Prop :=
  (∀ e, (short A B).Equation e.x e.y → (short a b).Equation (map e).x (map e).y) ∧
    ∃ untwist : (short A B).Point →+ (short a b).Point,
      ∀ e P, e.Represents P → (map e).Represents (untwist P)

/-- Rescaling the coordinates is such a map. -/
theorem untwisting_of_rescales {K L : Type*} [Field K] [Field L] [DecidableEq K] [DecidableEq L]
    {embed : K →+* L} {A B : K} {a b u : L} (scales : Rescales embed A B a b u)
    {map : PointS K → PointS L}
    (coordinates : ∀ e, map e = ⟨e.infFlag, embed e.x / u ^ 2, embed e.y / u ^ 3⟩) :
    Untwisting A B a b map := by
  constructor
  · intro e on
    rw [coordinates]
    exact scales.equation on
  · refine ⟨rescale scales, ?_⟩
    intro e P represents
    rw [coordinates]
    cases P with
    | zero => exact represents
    | some x y on =>
      rw [PointS.represents_some_iff] at represents
      subst represents
      rfl

section TypeD

variable {F : Type*} [Field F] [DecidableEq F] [FpMethods F] {n : ℕ} {poly : Fin n → F} {nqr : F}
  [irreducible : Fact (Irreducible (monicPoly poly))]

/-- The inverses that `pairing_init_d_param` stores. -/
theorem pairingInitDParam_inverses (unit : elementFieldToPolymod poly nqr ≠ 0) {a b : F}
    {q r k : ℕ} {p : MntPairingData poly nqr} (run : pairingInitDParam poly nqr a b q r k = .ok p) :
    p.nqrinv = (elementFieldToPolymod poly nqr)⁻¹ ∧
      p.nqrinv2 = (elementFieldToPolymod poly nqr)⁻¹ * (elementFieldToPolymod poly nqr)⁻¹ := by
  simp only [pairingInitDParam, InvertsNonzero.invert_ok unit, FieldMethods.square_eq,
    elementPowMpz_ok, bind, Except.bind, pure, Except.pure] at run
  split_ifs at run with odd six
  · cases run
    constructor
    · rfl
    · rfl
  · cases run
    constructor
    · rfl
    · rfl

/-- The square root that generates the target field of type D. -/
def dRoot (poly : Fin n → F) (nqr : F) : DGt poly nqr := ⟨0, 1⟩

omit [DecidableEq F] [FpMethods F] in
theorem dRoot_sq :
    dRoot poly nqr ^ 2 = algebraMap (Polymod poly) _ (elementFieldToPolymod poly nqr) := by
  rw [sq]
  ext1
  · simp [dRoot]
  · simp [dRoot]

variable [nonsquare : Fact (∀ r : Polymod poly, r ^ 2 ≠ elementFieldToPolymod poly nqr + 0 * r)]

omit [DecidableEq F] [FpMethods F] in
theorem dRescales (a b : F) :
    Rescales (algebraMap (Polymod poly) (DGt poly nqr))
      (twistCurveCoeffs (elementFieldToPolymod poly nqr) (elementFieldToPolymod poly a)
        (elementFieldToPolymod poly b)).1
      (twistCurveCoeffs (elementFieldToPolymod poly nqr) (elementFieldToPolymod poly a)
        (elementFieldToPolymod poly b)).2
      (algebraMap F _ a) (algebraMap F _ b) (dRoot poly nqr) where
  nonzero := by
    intro zero
    have second := congrArg QuadraticAlgebra.im zero
    exact one_ne_zero second
  linear := by
    have power : dRoot poly nqr ^ 4 = (dRoot poly nqr ^ 2) ^ 2 := pow_mul _ 2 2
    have constant : algebraMap F (DGt poly nqr) a =
      algebraMap (Polymod poly) _ (elementFieldToPolymod poly a) := rfl
    rw [constant, power, dRoot_sq, ← map_pow, ← map_mul, twistCurveCoeffs]
    congr 1
    ring
  constant := by
    have power : dRoot poly nqr ^ 6 = (dRoot poly nqr ^ 2) ^ 3 := pow_mul _ 2 3
    have constant : algebraMap F (DGt poly nqr) b =
      algebraMap (Polymod poly) _ (elementFieldToPolymod poly b) := rfl
    rw [constant, power, dRoot_sq, ← map_pow, ← map_mul, twistCurveCoeffs]
    congr 1
    ring

/-- The stored inverses divide by the powers of the square root. -/
theorem dUntwist_eq {a b : F} {q r k : ℕ} {p : MntPairingData poly nqr}
    (run : pairingInitDParam poly nqr a b q r k = .ok p) (e : PointS (Polymod poly)) :
    dUntwist p e = ⟨e.infFlag, algebraMap _ _ e.x / dRoot poly nqr ^ 2,
      algebraMap _ _ e.y / dRoot poly nqr ^ 3⟩ := by
  have unit : elementFieldToPolymod poly nqr ≠ 0 := ne_zero_of_nonsquare
  have root : dRoot poly nqr ≠ 0 := (dRescales 0 0).nonzero
  have cube : dRoot poly nqr ^ 3 = dRoot poly nqr ^ 2 * dRoot poly nqr := pow_succ _ 2
  obtain ⟨first, second⟩ := pairingInitDParam_inverses unit run
  rw [dUntwist, first, second, PointS.mk.injEq, eq_div_iff (pow_ne_zero 2 root),
    eq_div_iff (pow_ne_zero 3 root), cube, dRoot_sq]
  refine ⟨rfl, ?_, ?_⟩
  · ext1
    · simp [inv_mul_cancel_right₀ unit]
    · simp
  · ext1
    · simp [dRoot]
      field_simp
    · simp [dRoot]

/-- The untwisting of type D. -/
theorem dUntwist_untwisting {a b : F} {q r k : ℕ} {p : MntPairingData poly nqr}
    (run : pairingInitDParam poly nqr a b q r k = .ok p) :
    Untwisting (twistCurveCoeffs (elementFieldToPolymod poly nqr) (elementFieldToPolymod poly a)
        (elementFieldToPolymod poly b)).1
      (twistCurveCoeffs (elementFieldToPolymod poly nqr) (elementFieldToPolymod poly a)
        (elementFieldToPolymod poly b)).2
      (algebraMap F (DGt poly nqr) a) (algebraMap F (DGt poly nqr) b) (dUntwist p) :=
  untwisting_of_rescales (dRescales a b) (dUntwist_eq run)

end TypeD

section TypeF

variable {F : Type*} [Field F] {beta : F} {alpha : FqData beta}
  [nonsquare : Fact (∀ r : F, r ^ 2 ≠ beta + 0 * r)]
  [extension : Fact (Irreducible (monicPoly (fPoly alpha)))]

theorem fAlpha_ne_zero : -alpha ≠ 0 := by
  have sextic := extension.out
  rw [monicPoly_fPoly] at sextic
  exact neg_ne_zero.mpr (alpha_ne_zero sextic)

/-- The sixth root divides the coefficients of the twist. -/
theorem fRescales (b : F) :
    Rescales (algebraMap (FqData beta) (Polymod (fPoly alpha))) 0 (fTwistB alpha b) 0
      (algebraMap (FqData beta) _ (algebraMap F _ b)) (fVariable alpha) where
  nonzero := by
    intro zero
    have sixth : fVariable alpha ^ 6 = algebraMap (FqData beta) _ (-alpha) := fVariable_pow_six
    rw [zero, zero_pow (by decide), eq_comm, map_eq_zero] at sixth
    exact fAlpha_ne_zero sixth
  linear := by rw [map_zero, zero_mul]
  constant := by
    rw [fVariable_pow_six, ← map_mul]
    congr 1
    ext1
    · simp [fTwistB, mul_comm]
    · simp [fTwistB, mul_comm]

variable [DecidableEq F] [FpMethods F]

/-- The inverse that `pairing_init_f_param` stores. -/
theorem pairingInitFParam_negalphainv {q r : ℕ} {p : FPairingData (FqData beta)}
    (run : pairingInitFParam q r alpha = .ok p) : p.negalphainv = (-alpha)⁻¹ := by
  have inverted : FieldMethods.invert (-alpha) = .ok (-alpha)⁻¹ :=
    InvertsNonzero.invert_ok fAlpha_ne_zero
  simp only [pairingInitFParam, inverted, elementPowMpz_ok, bind, Except.bind, pure,
    Except.pure] at run
  cases run
  rfl

/-- The stored inverse divides by the powers of the sixth root. -/
theorem fUntwist_eq {q r : ℕ} {p : FPairingData (FqData beta)}
    (run : pairingInitFParam q r alpha = .ok p) (e : PointS (FqData beta)) :
    (fUntwist p e : PointS (Polymod (fPoly alpha))) =
      ⟨e.infFlag, algebraMap _ _ e.x / fVariable alpha ^ 2,
        algebraMap _ _ e.y / fVariable alpha ^ 3⟩ := by
  have root : fVariable alpha ≠ 0 := (fRescales 0).nonzero
  have fourth (c : FqData beta) : (⟨![0, 0, 0, 0, c, 0]⟩ : Polymod (fPoly alpha)) =
      algebraMap _ _ c * fVariable alpha ^ 4 := by
    rw [polymod_eq_sum ⟨![0, 0, 0, 0, c, 0]⟩]
    simp
  have third (c : FqData beta) : (⟨![0, 0, 0, c, 0, 0]⟩ : Polymod (fPoly alpha)) =
      algebraMap _ _ c * fVariable alpha ^ 3 := by
    rw [polymod_eq_sum ⟨![0, 0, 0, c, 0, 0]⟩]
    simp
  have cancel (c : FqData beta) : algebraMap _ (Polymod (fPoly alpha)) (c * (-alpha)⁻¹) *
      fVariable alpha ^ 6 = algebraMap _ _ c := by
    rw [fVariable_pow_six, ← map_mul, inv_mul_cancel_right₀ fAlpha_ne_zero]
  rw [fUntwist, pairingInitFParam_negalphainv run, fourth, third, PointS.mk.injEq,
    eq_div_iff (pow_ne_zero 2 root), eq_div_iff (pow_ne_zero 3 root), mul_assoc, mul_assoc,
    ← pow_add, ← pow_add, cancel, cancel]
  exact ⟨rfl, rfl, rfl⟩

/-- The untwisting of type F. -/
theorem fUntwist_untwisting {q r : ℕ} {p : FPairingData (FqData beta)} (b : F)
    (run : pairingInitFParam q r alpha = .ok p) :
    Untwisting 0 (fTwistB alpha b) 0 (algebraMap (FqData beta) (Polymod (fPoly alpha))
      (algebraMap F _ b)) (fUntwist p) :=
  untwisting_of_rescales (fRescales b) (fUntwist_eq run)

end TypeF

/-- The maps of both types send the points of the twist to points of the curve of the first
group over the target field, and respect addition. -/
theorem untwist_exact {F : Type*} [Field F] [DecidableEq F] [FpMethods F] :
    (∀ {n : ℕ} (poly : Fin n → F) (nqr a b : F) [Fact (Irreducible (monicPoly poly))]
        [Fact (∀ r : Polymod poly, r ^ 2 ≠ elementFieldToPolymod poly nqr + 0 * r)] (q r k : ℕ)
        (p : MntPairingData poly nqr), pairingInitDParam poly nqr a b q r k = .ok p →
      let twist := twistCurveCoeffs (elementFieldToPolymod poly nqr) (elementFieldToPolymod poly a)
        (elementFieldToPolymod poly b)
      Untwisting twist.1 twist.2 (algebraMap F (DGt poly nqr) a) (algebraMap F (DGt poly nqr) b)
        (dUntwist p)) ∧
    (∀ (beta : F) (alpha : FqData beta) (b : F) [Fact (∀ r : F, r ^ 2 ≠ beta + 0 * r)]
        [Fact (Irreducible (monicPoly (fPoly alpha)))] (q r : ℕ) (p : FPairingData (FqData beta)),
        pairingInitFParam q r alpha = .ok p →
      Untwisting 0 (fTwistB alpha b) 0
        (algebraMap (FqData beta) (Polymod (fPoly alpha)) (algebraMap F _ b)) (fUntwist p)) := by
  constructor
  · intro n poly nqr a b irreducible nonsquare q r k p run
    exact dUntwist_untwisting run
  · intro beta alpha b nonsquare extension q r p run
    exact fUntwist_untwisting b run

section Small

private local instance nonsquareFive : Fact (∀ r : ZMod 5, r ^ 2 ≠ 2 + 0 * r) := ⟨by decide⟩

private local instance irreducibleSextic : Fact (Irreducible (monicPoly (fPoly smallAlpha))) :=
  ⟨by
    rw [monicPoly_fPoly]
    exact irreducible_smallAlpha⟩

private local instance nonsquareCubic : Fact (∀ r : Polymod (![1, 1, 0] : Fin 3 → ZMod 5),
    r ^ 2 ≠ elementFieldToPolymod ![1, 1, 0] 2 + 0 * r) :=
  odd_extension_nonresidue (by decide) nonresidue_five (by decide)

/-- The twists of `y^2 = x^3 + 2 x + 1` over `F_125` and of `y^2 = x^3 + 1` over `F_25`. -/
theorem untwist_exact_small :
    (let v := elementFieldToPolymod (![1, 1, 0] : Fin 3 → ZMod 5) 2
      let twist := twistCurveCoeffs v (elementFieldToPolymod _ 2) (elementFieldToPolymod _ 1)
      Untwisting twist.1 twist.2 (algebraMap (ZMod 5) (DGt ![1, 1, 0] 2) 2)
        (algebraMap (ZMod 5) (DGt ![1, 1, 0] 2) 1) (dUntwist smallD)) ∧
    ∃ p, pairingInitFParam 5 601 smallAlpha = .ok p ∧
      Untwisting 0 (fTwistB smallAlpha 1) 0
        (algebraMap (FqData (2 : ZMod 5)) (Polymod (fPoly smallAlpha))
          (algebraMap (ZMod 5) (FqData (2 : ZMod 5)) 1)) (fUntwist p) := by
  constructor
  · exact untwist_exact.1 ![1, 1, 0] 2 2 1 _ 7 6 smallD smallD_initialised
  · have order : Fintype.card (FqData (2 : ZMod 5)) = 5 ^ 2 := by rw [card_fqData, ZMod.card]
    have run := pairingInitFParam_ok (r := 601) order (by decide)
      (alpha_ne_zero irreducible_smallAlpha)
    refine ⟨_, run, ?_⟩
    exact untwist_exact.2 2 smallAlpha 1 5 601 _ run

end Small

end Pbc.Ecc
