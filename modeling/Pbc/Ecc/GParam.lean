import Pbc.Ecc.AEllnet
import Pbc.Ecc.DParam

/-!
# Type G pairings

The pairing of an ordinary curve of embedding degree ten with its quadratic twist over
`F_{q^5}`. The Miller loop is that of type D; the final powering splits off Frobenius maps on
five coefficients; the other method keeps a block of an elliptic net over `F_q` and three
terms of it over `F_{q^10}`.
-/

open Pbc.Arith Pbc.Gmp Pbc.Algebra

namespace Pbc.Ecc

variable {F : Type*} [Field F] [DecidableEq F] [FpMethods F] {poly : Fin 5 → F} {nqr : F}

/-- What `pairing_init_g_param` leaves in `mnt_pairing_data_s` and in the pairing. -/
structure GPairingData (poly : Fin 5 → F) (nqr : F) where
  a : F
  b : F
  r : ℕ
  nqrinv : Polymod poly
  nqrinv2 : Polymod poly
  xpowq : Polymod poly
  xpowq2 : Polymod poly
  xpowq3 : Polymod poly
  xpowq4 : Polymod poly
  phikonr : ℕ
  tateexp : ℕ

/-- `pairing_init_g_param`. -/
def pairingInitGParam (poly : Fin 5 → F) (nqr a b : F) (q r : ℕ) :
    Except Exit (GPairingData poly nqr) := do
  let z : ℤ := 1
  let z := z - q
  let z0 : ℤ := q * q
  let z := z + z0
  let z0 := z0 * q
  let z := z - z0
  let z0 := z0 * q
  let z := z + z0
  let phikonr := z / r
  let e : Polymod poly := ⟨fun i => if (i : ℕ) = 1 then 1 else 0⟩
  let xpowq ← elementPowMpz e e q
  let xpowq2 := FieldMethods.square xpowq
  let xpowq4 := FieldMethods.square xpowq2
  let xpowq3 := xpowq2 * xpowq
  let tateexp := ((q ^ 5) ^ 2 - 1) / r
  let nqrinv ← FieldMethods.invert (elementFieldToPolymod poly nqr)
  let nqrinv2 := FieldMethods.square nqrinv
  return ⟨a, b, r, nqrinv, nqrinv2, xpowq, xpowq2, xpowq3, xpowq4, phikonr.toNat, tateexp⟩

/-- `qpower` of `cc_tatepower`; `sign` is the case of a positive argument. -/
def gQpower (p : GPairingData poly nqr) (inn : DGt poly nqr) (sign : Bool) : DGt poly nqr :=
  let inre := coeffAt inn.re.coeff
  let inim := coeffAt inn.im.coeff
  let e2 := polymodConstMul (inre 1) p.xpowq
  let e0re := e2
  let e2 := polymodConstMul (inre 2) p.xpowq2
  let e0re := polymodAdd e0re e2
  let e2 := polymodConstMul (inre 3) p.xpowq3
  let e0re := polymodAdd e0re e2
  let e2 := polymodConstMul (inre 4) p.xpowq4
  let e0re := polymodAdd e0re e2
  let e0re := addConstant e0re (inre 0)
  if sign then
    let e2 := polymodConstMul (inim 1) p.xpowq
    let e0im := e2
    let e2 := polymodConstMul (inim 2) p.xpowq2
    let e0im := polymodAdd e0im e2
    let e2 := polymodConstMul (inim 3) p.xpowq3
    let e0im := polymodAdd e0im e2
    let e2 := polymodConstMul (inim 4) p.xpowq4
    let e0im := polymodAdd e0im e2
    let e0im := addConstant e0im (inim 0)
    ⟨e0re, e0im⟩
  else
    let e2 := polymodConstMul (inim 1) p.xpowq
    let e0im := polymodNeg e2
    let e2 := polymodConstMul (inim 2) p.xpowq2
    let e0im := polymodSub e0im e2
    let e2 := polymodConstMul (inim 3) p.xpowq3
    let e0im := polymodSub e0im e2
    let e2 := polymodConstMul (inim 4) p.xpowq4
    let e0im := polymodSub e0im e2
    let e0im := addConstant e0im (-inim 0)
    ⟨e0re, e0im⟩

/-- `cc_tatepower`: the values it leaves in `out` and in `in`. -/
def gCcTatepower (p : GPairingData poly nqr) (inn : DGt poly nqr) :
    Except Exit (DGt poly nqr × DGt poly nqr) := do
  let e0 := gQpower p inn true
  let e3 := e0
  let e0 : DGt poly nqr := ⟨inn.re, -inn.im⟩
  let e3 := fqMul e3 e0
  let e0 := gQpower p inn false
  let e0 := fqMul e0 inn
  let e0 ← fqInvert e0
  let inn := fqMul e3 e0
  let e0 := inn
  let out ← lucasEven e0 p.phikonr
  return (out, inn)

/-- `cc_tatepower` on two objects, which may be one: `in` is written before `out`. -/
def gCcTatepowerAt {ι : Type*} [DecidableEq ι] (p : GPairingData poly nqr)
    (objects : ι → DGt poly nqr) (out inn : ι) : Except Exit (ι → DGt poly nqr) :=
  (gCcTatepower p (objects inn)).map fun values =>
    Function.update (Function.update objects inn values.2) out values.1

end Pbc.Ecc
