import Pbc.Ecc.Lucas
import Pbc.Ecc.Pairing

/-!
# Type A pairings

The pairing of the supersingular curve `y^2 = x^3 + x` with itself, with values in
`F_q^2 = F_q(i)`. The order is a sum of three signed powers of two, so the Miller
loop is a run of doublings that keeps one intermediate point for a last chord.
The run is written three times: in Jacobian coordinates, in affine ones, and as a
table of lines with its replay.
-/

open Pbc.Arith Pbc.Gmp

namespace Pbc.Ecc

/-- `a_param_s`. -/
structure AParam where
  q : ℕ
  r : ℕ
  h : ℕ
  exp2 : ℕ
  exp1 : ℕ
  sign1 : ℤ
  sign0 : ℤ
  deriving DecidableEq, Repr

/-- The parameter sets that the generator looks for. -/
structure AParam.Valid (param : AParam) : Prop where
  residue : param.q % 4 = 3
  prime : param.r.Prime
  form : (param.r : ℤ) = 2 ^ param.exp2 + param.sign1 * 2 ^ param.exp1 + param.sign0
  sign1 : param.sign1 = 1 ∨ param.sign1 = -1
  sign0 : param.sign0 = 1 ∨ param.sign0 = -1
  large : 7 ≤ param.r
  cofactor : param.r * param.h = param.q + 1

/-- What `pairing_init_a_param` leaves in `a_pairing_data_s` and in the pairing. -/
structure APairingData where
  exp2 : ℕ
  exp1 : ℕ
  sign1 : ℤ
  r : ℕ
  phikonr : ℕ
  deriving DecidableEq, Repr

/-- `pairing_init_a_param`. -/
def pairingInitAParam (param : AParam) : APairingData where
  exp2 := param.exp2
  exp1 := param.exp1
  sign1 := param.sign1
  r := param.r
  phikonr := param.h

variable {F : Type*} [Field F] [DecidableEq F] [FpMethods F]

/-- `compute_abc_tangent`. -/
def computeAbcTangent (V : PointS F) : PpCoeff F :=
  let a := FieldMethods.square V.x
  let e0 := a + a
  let a := e0 + a
  let b := 1
  let a := a + b
  let a := -a
  let b := FieldMethods.double V.y
  let e0 := b * V.y
  let c := a * V.x
  let c := c + e0
  let c := -c
  ⟨a, b, c⟩

/-- `compute_abc_tangent_proj`. -/
def computeAbcTangentProj (s : ProjState F) : PpCoeff F :=
  let a := FieldMethods.square s.z2
  let b := FieldMethods.square s.Z.x
  let e0 := FieldMethods.double b
  let b := e0 + b
  let a := a + b
  let a := -a
  let e0 := FieldMethods.double s.Z.y
  let b := e0 * s.z2
  let b := b * s.z
  let c := s.Z.x * a
  let a := a * s.z2
  let e0 := e0 * s.Z.y
  let c := c + e0
  let c := -c
  ⟨a, b, c⟩

/-- `compute_abc_line`. -/
def computeAbcLine (V V1 : PointS F) : PpCoeff F :=
  let a := V.y - V1.y
  let b := V1.x - V.x
  let c := V.x * V1.y
  let e0 := V.y * V1.x
  let c := c - e0
  ⟨a, b, c⟩

/-- `a_miller_evalfn`: the line at `(-Qx, i Qy)`. -/
def aMillerEvalfn (line : PpCoeff F) (Qx Qy : F) : FiData F :=
  let im := line.a * Qx
  let re := line.c - im
  let im := line.b * Qy
  ⟨re, im⟩

/-- `a_tateexp`. -/
def aTateexp (inn : FiData F) (cofactor : ℕ) : FiData F :=
  let temp := fiInvert inn
  let inn : FiData F := ⟨inn.re, -inn.im⟩
  let inn := fiMul inn temp
  lucasOdd inn cofactor

/-- `proj_double` of `a_pairing_proj`. -/
def aProjDouble (s : ProjState F) : ProjState F :=
  let e0 := FieldMethods.square s.Z.x
  let e1 := FieldMethods.double e0
  let e0 := e1 + e0
  let e1 := FieldMethods.square s.z2
  let e0 := e0 + e1
  let z := s.Z.y * s.z
  let z := FieldMethods.double z
  let z2 := FieldMethods.square z
  let e2 := FieldMethods.square s.Z.y
  let e1 := s.Z.x * e2
  let e1 := FieldMethods.double e1
  let e1 := FieldMethods.double e1
  let e3 := FieldMethods.double e1
  let Vx := FieldMethods.square e0
  let Vx := Vx - e3
  let e2 := FieldMethods.square e2
  let e2 := FieldMethods.double e2
  let e2 := FieldMethods.double e2
  let e2 := FieldMethods.double e2
  let e1 := e1 - Vx
  let e0 := e0 * e1
  let Vy := e0 - e2
  ⟨{ s.Z with x := Vx, y := Vy }, z, z2⟩

/-- `point_to_affine`. -/
def pointToAffine (s : ProjState F) : ProjState F :=
  let z := zpInvert s.z
  let e0 := FieldMethods.square z
  let Vx := s.Z.x * e0
  let e0 := e0 * z
  let Vy := s.Z.y * e0
  ⟨{ s.Z with x := Vx, y := Vy }, 1, 1⟩

/-- `n` turns of the two loops of `a_pairing_proj`. -/
def aPairingProjLoop (Qx Qy : F) : ℕ → ProjState F → FiData F → ProjState F × FiData F
  | 0, s, f => (s, f)
  | n + 1, s, f =>
      let f := fiSquare f
      let f := fiMul f (aMillerEvalfn (computeAbcTangentProj s) Qx Qy)
      let s := aProjDouble s
      aPairingProjLoop Qx Qy n s f

/-- `a_pairing_proj`. -/
def aPairingProj (p : APairingData) (in1 in2 : PointS F) : FiData F :=
  let Qx := in2.x
  let Qy := in2.y
  let V := curveSet curveInit in1
  let (s, f) := aPairingProjLoop Qx Qy p.exp1 ⟨V, 1, 1⟩ 1
  let s := pointToAffine s
  let V1 := if p.sign1 < 0 then curveInvert curveInit s.Z else curveSet curveInit s.Z
  let f1 := if p.sign1 < 0 then fiInvert f else f
  let (s, f) := aPairingProjLoop Qx Qy (p.exp2 - p.exp1) s f
  let f := fiMul f f1
  let s := pointToAffine s
  let f := fiMul f (aMillerEvalfn (computeAbcLine s.Z V1) Qx Qy)
  aTateexp f p.phikonr

/-- `n` turns of the two loops of `a_pairing_affine`. -/
def aPairingAffineLoop (Qx Qy : F) : ℕ → PointS F → FiData F → Except Exit (PointS F × FiData F)
  | 0, V, f => .ok (V, f)
  | n + 1, V, f => do
      let f := fiSquare f
      let f := fiMul f (aMillerEvalfn (computeAbcTangent V) Qx Qy)
      let V ← curveDouble 1 V V
      aPairingAffineLoop Qx Qy n V f

/-- `a_pairing_affine`. -/
def aPairingAffine (p : APairingData) (in1 in2 : PointS F) : Except Exit (FiData F) := do
  let Qx := in2.x
  let Qy := in2.y
  let V := curveSet curveInit in1
  let (V, f) ← aPairingAffineLoop Qx Qy p.exp1 V 1
  let V1 := if p.sign1 < 0 then curveInvert curveInit V else curveSet curveInit V
  let f1 := if p.sign1 < 0 then fiInvert f else f
  let (V, f) ← aPairingAffineLoop Qx Qy (p.exp2 - p.exp1) V f
  let f := fiMul f f1
  let f := fiMul f (aMillerEvalfn (computeAbcLine V V1) Qx Qy)
  return aTateexp f p.phikonr

/-- `n` turns of the two loops of `a_pairing_pp_init`: the triples written from the
current index on are appended. -/
def aPairingPpInitLoop : ℕ → PointS F → List (PpCoeff F) →
    Except Exit (PointS F × List (PpCoeff F))
  | 0, V, coeff => .ok (V, coeff)
  | n + 1, V, coeff => do
      let coeff := coeff ++ [computeAbcTangent V]
      let V ← curveDouble 1 V V
      aPairingPpInitLoop n V coeff

/-- `a_pairing_pp_init`. -/
def aPairingPpInit (p : APairingData) (in1 : PointS F) : Except Exit (PpTable F) := do
  let V := curveSet curveInit in1
  let (V, coeff) ← aPairingPpInitLoop p.exp1 V []
  let V1 := if p.sign1 < 0 then curveInvert curveInit V else curveSet curveInit V
  let (V, coeff) ← aPairingPpInitLoop (p.exp2 - p.exp1) V coeff
  let coeff := coeff ++ [computeAbcLine V V1]
  return ⟨p.exp2 + 1, coeff⟩

/-- `n` turns of the two loops of `a_pairing_pp_apply` from index `i` on. -/
def aPairingPpApplyLoop (coeff : ℕ → Option (PpCoeff F)) (Qx Qy : F) :
    ℕ → ℕ → FiData F → Option (ℕ × FiData F)
  | 0, i, f => some (i, f)
  | n + 1, i, f => do
      let f := fiSquare f
      let pp ← coeff i
      let f := fiMul f (aMillerEvalfn pp Qx Qy)
      aPairingPpApplyLoop coeff Qx Qy n (i + 1) f

/-- `a_pairing_pp_apply`. -/
def aPairingPpApply (p : APairingData) (coeff : ℕ → Option (PpCoeff F)) (in2 : PointS F) :
    Option (FiData F) := do
  let Qx := in2.x
  let Qy := in2.y
  let (i, f) ← aPairingPpApplyLoop coeff Qx Qy p.exp1 0 1
  let out := if p.sign1 < 0 then fiInvert f else f
  let (i, f) ← aPairingPpApplyLoop coeff Qx Qy (p.exp2 - p.exp1) i f
  let f := fiMul f out
  let pp ← coeff i
  let f := fiMul f (aMillerEvalfn pp Qx Qy)
  return aTateexp f p.phikonr

end Pbc.Ecc
