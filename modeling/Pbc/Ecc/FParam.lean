import Pbc.Arith.FieldQuadratic
import Pbc.Arith.Poly
import Pbc.Arith.Pow

/-!
# Type F pairings

The pairing of a curve over `F_q` with a curve over `F_{q^2}`, with values in
`F_{q^12} = F_{q^2}[x]/(x^6 + alpha)`. The final powering uses that the powers
`q^(2k)` of `x` are multiples of `x` by scalars.
-/

open Pbc.Arith Pbc.Algebra

namespace Pbc.Ecc

variable {K : Type*} [CommRing K]

/-- The lower coefficients of `x^6 + alpha`, the polynomial `irred`. -/
def fPoly (alpha : K) : Fin 6 → K := ![alpha, 0, 0, 0, 0, 0]

/-- The sixth power of `x` is `-alpha`. -/
theorem root_pow_six (alpha : K) : root (fPoly alpha) ^ 6 = AdjoinRoot.of _ (-alpha) := by
  have reduced : polymodNeg (⟨fPoly alpha⟩ : Polymod (fPoly alpha)) =
      elementFieldToPolymod _ (-alpha) := by
    ext i
    fin_cases i
    · rfl
    all_goals exact neg_zero
  rw [← Polymod.quotient_fieldToPolymod, ← reduced]
  exact (Polymod.quotient_computeXPowers 0).symm

/-- `f_pairing_data_s`, over the field `Fq2`. -/
structure FPairingData (K : Type*) where
  negalpha : K
  negalphainv : K
  xpowq2 : K
  xpowq6 : K
  xpowq8 : K
  tateexp : ℕ
  deriving DecidableEq, Repr

variable [DecidableEq K] [FieldMethods K]

/-- `pairing_init_f_param`, once `Fq2` and its element `alpha` are built. -/
def pairingInitFParam (q r : ℕ) (alpha : K) : Except Exit (FPairingData K) := do
  let negalpha := -alpha
  let negalphainv ← FieldMethods.invert negalpha
  let z := q * q
  let z := z - 1
  let z := z * q
  let z := z * q
  let z := z + 1
  let z := z / r
  let xpowq : Polymod (fPoly alpha) := ⟨![0, 1, 0, 0, 0, 0]⟩
  let xpowq ← elementPowMpz xpowq xpowq q
  let xpowq ← elementPowMpz xpowq xpowq q
  let xpowq2 := xpowq.coeff 1
  let xpowq ← elementPowMpz xpowq xpowq q
  let xpowq ← elementPowMpz xpowq xpowq q
  let xpowq ← elementPowMpz xpowq xpowq q
  let xpowq ← elementPowMpz xpowq xpowq q
  let xpowq6 := xpowq.coeff 1
  let xpowq ← elementPowMpz xpowq xpowq q
  let xpowq ← elementPowMpz xpowq xpowq q
  let xpowq8 := xpowq.coeff 1
  return ⟨negalpha, negalphainv, xpowq2, xpowq6, xpowq8, z⟩

/-- `qpower` of `f_pairing`. -/
def fQpower {poly : Fin 6 → K} (out : Polymod poly) (e : K) : Polymod poly :=
  let e1_0 := out.coeff 0
  let e1_1 := out.coeff 1 * e
  let epow := FieldMethods.square e
  let e1_2 := out.coeff 2 * epow
  let epow := epow * e
  let e1_3 := out.coeff 3 * epow
  let epow := epow * e
  let e1_4 := out.coeff 4 * epow
  let epow := epow * e
  let e1_5 := out.coeff 5 * epow
  ⟨![e1_0, e1_1, e1_2, e1_3, e1_4, e1_5]⟩

/-- The powering of `f_pairing` after its Miller loop. -/
def fTatepower {poly : Fin 6 → K} (p : FPairingData K) (out : Polymod poly) :
    Except Exit (Polymod poly) := do
  let y := fQpower out p.xpowq8
  let x := fQpower out p.xpowq6
  let y := y * x
  let x := fQpower out p.xpowq2
  let x := x * out
  let x ← FieldMethods.invert x
  let out := y * x
  elementPowMpz out out p.tateexp

end Pbc.Ecc
