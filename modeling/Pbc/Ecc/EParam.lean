import Pbc.Ecc.AParam
import Pbc.Ecc.DParam

/-!
# Type E pairings

The pairing of a curve over `F_q` of embedding degree one with values in `F_q`. Nothing
removes factors of `F_q`, so the Miller loop keeps a fraction: the lines are evaluated at
the point `Q + R` and divided by their values at the offset `R`. The loop is written in
Jacobian and in affine coordinates.
-/

open Pbc.Arith

namespace Pbc.Ecc

variable {F : Type*} [Field F] [DecidableEq F] [FpMethods F]

/-- What `pairing_init_e_param` leaves in `e_pairing_data_s` and in the pairing. -/
structure EPairingData (F : Type*) where
  exp2 : ℕ
  exp1 : ℕ
  sign1 : ℤ
  sign0 : ℤ
  R : PointS F
  a : F
  b : F
  phikonr : ℕ

/-- `pairing_init_e_param`, with the point that `curve_set_gen_no_cofac` finds. -/
def pairingInitEParam (a b : F) (q r exp2 exp1 : ℕ) (sign1 sign0 : ℤ) (R : PointS F) :
    EPairingData F where
  exp2 := exp2
  exp1 := exp1
  sign1 := sign1
  sign0 := sign0
  R := R
  a := a
  b := b
  phikonr := (q - 1) / r

/-- A value at `Q + R` over a value at `R`. -/
structure EFraction (F : Type*) where
  v : F
  vd : F

/-- The value of a line at a point. -/
def eEvalfn (line : PpCoeff F) (A : PointS F) : F :=
  let e0 := line.a * A.x
  let e1 := line.b * A.y
  let e0 := e0 + e1
  e0 + line.c

/-- The end of `do_tangent` and `do_line`. -/
def eMulLine (QR R : PointS F) (line : PpCoeff F) (f : EFraction F) : EFraction F :=
  ⟨f.v * eEvalfn line QR, f.vd * eEvalfn line R⟩

/-- `do_vertical(v, vd, Ax)` of `e_miller_affine`. -/
def eVertical (QR R : PointS F) (Ax : F) (f : EFraction F) : EFraction F :=
  ⟨f.v * (QR.x - Ax), f.vd * (R.x - Ax)⟩

/-- `do_vertical(vd, v, Ax)` of `e_miller_affine`. -/
def eVerticalBelow (QR R : PointS F) (Ax : F) (f : EFraction F) : EFraction F :=
  ⟨f.v * (R.x - Ax), f.vd * (QR.x - Ax)⟩

/-- `do_vertical(v, vd, Ax)` of `e_miller_proj`. -/
def eProjVertical (QR R : PointS F) (z2 Ax : F) (f : EFraction F) : EFraction F :=
  ⟨f.v * (QR.x * z2 - Ax), f.vd * (R.x * z2 - Ax)⟩

/-- `do_vertical(vd, v, Ax)` of `e_miller_proj`. -/
def eProjVerticalBelow (QR R : PointS F) (z2 Ax : F) (f : EFraction F) : EFraction F :=
  ⟨f.v * (R.x * z2 - Ax), f.vd * (QR.x * z2 - Ax)⟩

/-- `do_tangent` of `e_miller_proj`. -/
def eProjTangent (cca : F) (s : ProjState F) : PpCoeff F :=
  let a := FieldMethods.square s.z2
  let a := a * cca
  let b := FieldMethods.square s.Z.x
  let e0 := FieldMethods.double b
  let b := b + e0
  let a := a + b
  let a := -a
  let e0 := FieldMethods.double s.Z.y
  let b := e0 * s.z2
  let b := b * s.z
  let c := s.Z.x * a
  let a := a * s.z2
  let e0 := e0 * s.Z.y
  let c := c + e0
  let c := -c
  ⟨a, b, c⟩

/-- Both squares at the start of a turn. -/
def eSquares (f : EFraction F) : EFraction F :=
  ⟨FieldMethods.square f.v, FieldMethods.square f.vd⟩

/-- `n` turns of the two loops of `e_miller_affine`. -/
def eMillerAffineLoop (cca : F) (QR R : PointS F) :
    ℕ → PointS F → EFraction F → Except Exit (PointS F × EFraction F)
  | 0, Z, f => .ok (Z, f)
  | n + 1, Z, f => do
      let f := eSquares f
      let f := eMulLine QR R (doTangent cca Z) f
      let Z ← curveDouble cca Z Z
      let f := eVerticalBelow QR R Z.x f
      eMillerAffineLoop cca QR R n Z f

/-- `e_miller_affine` up to its inversion. -/
def eMillerAffineFraction (p : EPairingData F) (P QR R : PointS F) : Except Exit (EFraction F) := do
  let Z := curveSet curveInit P
  let (Z, f) ← eMillerAffineLoop p.a QR R p.exp1 Z ⟨1, 1⟩
  let f1 := if p.sign1 < 0 then eVerticalBelow QR R Z.x ⟨f.vd, f.v⟩ else f
  let Z1 := if p.sign1 < 0 then curveInvert curveInit Z else curveSet curveInit Z
  let (Z, f) ← eMillerAffineLoop p.a QR R (p.exp2 - p.exp1) Z f
  let f : EFraction F := ⟨f.v * f1.v, f.vd * f1.vd⟩
  let f := eMulLine QR R (computeAbcLine Z Z1) f
  let Z ← curveMul p.a Z Z Z1
  let f := eVerticalBelow QR R Z.x f
  return if p.sign0 > 0 then eVertical QR R P.x f else f

/-- `n` turns of the two loops of `e_miller_proj`. -/
def eMillerProjLoop (cca : F) (QR R : PointS F) :
    ℕ → ProjState F → EFraction F → ProjState F × EFraction F
  | 0, s, f => (s, f)
  | n + 1, s, f =>
      let f := eSquares f
      let f := eMulLine QR R (eProjTangent cca s) f
      let s := projDouble .x .y cca s
      let f := eProjVerticalBelow QR R s.z2 s.Z.x f
      eMillerProjLoop cca QR R n s f

/-- `e_miller_proj` up to its inversion. -/
def eMillerProjFraction (p : EPairingData F) (P QR R : PointS F) : Except Exit (EFraction F) := do
  let Z := curveSet curveInit P
  let (s, f) := eMillerProjLoop p.a QR R p.exp1 ⟨Z, 1, 1⟩ ⟨1, 1⟩
  let s := pointToAffine s
  let f1 := if p.sign1 < 0 then eProjVerticalBelow QR R s.z2 s.Z.x ⟨f.vd, f.v⟩ else f
  let Z1 := if p.sign1 < 0 then curveInvert curveInit s.Z else curveSet curveInit s.Z
  let (s, f) := eMillerProjLoop p.a QR R (p.exp2 - p.exp1) s f
  let s := pointToAffine s
  let f : EFraction F := ⟨f.v * f1.v, f.vd * f1.vd⟩
  let f := eMulLine QR R (computeAbcLine s.Z Z1) f
  let Z ← curveMul p.a s.Z s.Z Z1
  let f := eProjVerticalBelow QR R s.z2 Z.x f
  return if p.sign0 > 0 then eProjVertical QR R s.z2 P.x f else f

/-- `e_miller_affine`. -/
def eMillerAffine (p : EPairingData F) (P QR R : PointS F) : Except Exit F := do
  let f ← eMillerAffineFraction p P QR R
  let vd := zpInvert f.vd
  return f.v * vd

/-- `e_miller_proj`. -/
def eMillerProj (p : EPairingData F) (P QR R : PointS F) : Except Exit F := do
  let f ← eMillerProjFraction p P QR R
  let vd := zpInvert f.vd
  return f.v * vd

/-- The function that `e_miller_fn` points to, and whether `map` is `e_pairing_ellnet`. -/
structure EMethods where
  miller : MillerMethod
  ellnet : Bool
  deriving DecidableEq, Repr

/-- `e_pairing_option_set`. -/
def ePairingOptionSet (methods : EMethods) (key value : String) : EMethods :=
  if key = "method" then
    if value = "miller" then ⟨.miller, false⟩
    else if value = "miller-affine" then ⟨.millerAffine, false⟩
    else if value = "shipsey-stange" then { methods with ellnet := true }
    else methods
  else methods

/-- A call through `e_miller_fn`. -/
def eMillerFn (methods : EMethods) (p : EPairingData F) (P QR R : PointS F) : Except Exit F :=
  match methods.miller with
  | .miller => eMillerProj p P QR R
  | .millerAffine => eMillerAffine p P QR R

/-- `e_pairing`. -/
def ePairing (methods : EMethods) (p : EPairingData F) (in1 in2 : PointS F) : Except Exit F := do
  let QR ← curveMul p.a curveInit in2 p.R
  let out ← eMillerFn methods p in1 QR p.R
  return out ^ p.phikonr

end Pbc.Ecc
