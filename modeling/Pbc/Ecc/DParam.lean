import Mathlib.Tactic.NormNum.Prime
import Pbc.Arith.Poly
import Pbc.Arith.Pow
import Pbc.Ecc.Curve
import Pbc.Ecc.Lucas
import Pbc.Ecc.Pairing

/-!
# Type D pairings

The pairing of an ordinary curve over `F_q` with its quadratic twist over
`F_{q^d}`, with values in the quadratic extension of `F_{q^d}`. A Miller loop
without denominators evaluates tangents and chords at the untwisted second point;
the final powering uses Frobenius maps and a Lucas ladder. The preprocessed
pairing stores the coefficients of the lines of the first point and replays them.
-/

open Pbc.Arith Pbc.Gmp Pbc.Algebra

namespace Pbc.Ecc

variable {F : Type*} [Field F] [DecidableEq F] [FpMethods F] {n : ℕ}

/-- The elements of the target group, pairs over `F_{q^d}`. -/
abbrev DGt (poly : Fin n → F) (nqr : F) := FqData (elementFieldToPolymod poly nqr)

/-- What `pairing_init_d_param` leaves in `mnt_pairing_data_s` and in the pairing. -/
structure MntPairingData (poly : Fin n → F) (nqr : F) where
  a : F
  b : F
  r : ℕ
  k : ℕ
  nqrinv : Polymod poly
  nqrinv2 : Polymod poly
  xpowq : Polymod poly
  xpowq2 : Polymod poly
  phikonr : ℕ
  tateexp : ℕ

variable {poly : Fin n → F} {nqr : F}

/-- `pairing_init_d_param`: what only the other embedding degrees use stays zero. -/
def pairingInitDParam (poly : Fin n → F) (nqr a b : F) (q r k : ℕ) :
    Except Exit (MntPairingData poly nqr) := do
  if k % 2 = 1 then throw .oddEmbeddingDegree
  let v := elementFieldToPolymod poly nqr
  let nqrinv ← FieldMethods.invert v
  let nqrinv2 := FieldMethods.square nqrinv
  if k = 6 then
    let phikonr := (q * q - q + 1) / r
    let x : Polymod poly := ⟨fun i => if (i : ℕ) = 1 then 1 else 0⟩
    let xpowq ← elementPowMpz x x q
    let xpowq2 := FieldMethods.square xpowq
    return ⟨a, b, r, k, nqrinv, nqrinv2, xpowq, xpowq2, phikonr, 0⟩
  else
    let tateexp := (q ^ n * q ^ n - 1) / r
    return ⟨a, b, r, k, nqrinv, nqrinv2, 0, 0, 0, tateexp⟩

/-- `d_miller_evalfn`: the line at `(Qx, Qy s)`. -/
def dMillerEvalfn (nqr : F) (line : PpCoeff F) (Qx Qy : Polymod poly) : DGt poly nqr :=
  ⟨⟨fun i => if (i : ℕ) = 0 then Qx.coeff i * line.a + line.c else Qx.coeff i * line.a⟩,
    ⟨fun i => Qy.coeff i * line.b⟩⟩

/-- `do_tangent` of `cc_miller_no_denom_affine`. -/
def doTangent (cca : F) (Z : PointS F) : PpCoeff F :=
  let a := FieldMethods.square Z.x
  let a := 3 * a
  let a := a + cca
  let a := -a
  let b := Z.y + Z.y
  let t0 := b * Z.y
  let c := a * Z.x
  let c := c + t0
  let c := -c
  ⟨a, b, c⟩

/-- `do_tangent` of `d_pairing_pp_init`. -/
def ppDoTangent (cca : F) (Z : PointS F) : PpCoeff F :=
  let a := FieldMethods.square Z.x
  let t0 := FieldMethods.double a
  let a := a + t0
  let a := a + cca
  let a := -a
  let b := Z.y + Z.y
  let t0 := b * Z.y
  let c := a * Z.x
  let c := c + t0
  let c := -c
  ⟨a, b, c⟩

/-- `do_line` of both. -/
def doLine (P Z : PointS F) : PpCoeff F :=
  let b := P.x - Z.x
  let a := Z.y - P.y
  let t0 := b * Z.y
  let c := a * Z.x
  let c := c + t0
  let c := -c
  ⟨a, b, c⟩

/-- The loop of `cc_miller_no_denom_affine` from bit `m` down. -/
def ccMillerNoDenomAffineLoop (cca : F) (q : ℕ) (P : PointS F) (Qx Qy : Polymod poly) :
    ℕ → PointS F → DGt poly nqr → Except Exit (DGt poly nqr)
  | 0, Z, v => .ok (fqMul v (dMillerEvalfn nqr (doTangent cca Z) Qx Qy))
  | m + 1, Z, v => do
      let v := fqMul v (dMillerEvalfn nqr (doTangent cca Z) Qx Qy)
      let Z ← curveDouble cca Z Z
      if mpzTstbit q (m + 1) then
        let v := fqMul v (dMillerEvalfn nqr (doLine P Z) Qx Qy)
        let Z ← curveMul cca Z Z P
        ccMillerNoDenomAffineLoop cca q P Qx Qy m Z (fqSquare v)
      else ccMillerNoDenomAffineLoop cca q P Qx Qy m Z (fqSquare v)

/-- `cc_miller_no_denom_affine`. -/
def ccMillerNoDenomAffine (nqr cca : F) (q : ℕ) (P : PointS F) (Qx Qy : Polymod poly) :
    Except Exit (DGt poly nqr) :=
  let Z := curveSet curveInit P
  ccMillerNoDenomAffineLoop cca q P Qx Qy (mpzSizeinbase2 q - 2) Z 1

/-- The coordinate of the point object that a pointer names. -/
inductive Coord where
  | x
  | y
  deriving DecidableEq, Repr

/-- Reading through the pointer. -/
def PointS.coord (Z : PointS F) : Coord → F
  | .x => Z.x
  | .y => Z.y

/-- Writing through the pointer. -/
def PointS.setCoord (Z : PointS F) (c : Coord) (v : F) : PointS F :=
  match c with
  | .x => { Z with x := v }
  | .y => { Z with y := v }

section Proj

variable (zx zy : Coord)

/-- `proj_double`. -/
def projDouble (cca : F) (s : ProjState F) : ProjState F :=
  let t0 := FieldMethods.square (s.Z.coord zx)
  let t1 := FieldMethods.double t0
  let t0 := t0 + t1
  let t1 := FieldMethods.square s.z2
  let t1 := t1 * cca
  let t0 := t0 + t1
  let z := s.Z.coord zy * s.z
  let z := FieldMethods.double z
  let z2 := FieldMethods.square z
  let t2 := FieldMethods.square (s.Z.coord zy)
  let t1 := s.Z.coord zx * t2
  let t1 := FieldMethods.double t1
  let t1 := FieldMethods.double t1
  let t3 := FieldMethods.double t1
  let Z := s.Z.setCoord zx (FieldMethods.square t0)
  let Z := Z.setCoord zx (Z.coord zx - t3)
  let t2 := FieldMethods.square t2
  let t2 := FieldMethods.double t2
  let t2 := FieldMethods.double t2
  let t2 := FieldMethods.double t2
  let t1 := t1 - Z.coord zx
  let t0 := t0 * t1
  let Z := Z.setCoord zy (t0 - t2)
  ⟨Z, z, z2⟩

/-- `proj_mixin`. -/
def projMixin (P : PointS F) (s : ProjState F) : ProjState F :=
  let t2 := s.z2 * P.x
  let t3 := s.Z.coord zx - t2
  let t0 := s.z2 * P.y
  let t0 := t0 * s.z
  let t1 := s.Z.coord zy - t0
  let t2 := s.Z.coord zx + t2
  let t0 := s.Z.coord zy + t0
  let z := s.z * t3
  let z2 := FieldMethods.square z
  let t4 := FieldMethods.square t3
  let t3 := t4 * t3
  let Z := s.Z.setCoord zx (FieldMethods.square t1)
  let t4 := t2 * t4
  let Z := Z.setCoord zx (Z.coord zx - t4)
  let t4 := t4 - Z.coord zx
  let t4 := t4 - Z.coord zx
  let t4 := t4 * t1
  let t0 := t0 * t3
  let t4 := t4 - t0
  let Z := Z.setCoord zy (zpHalve t4)
  ⟨Z, z, z2⟩

/-- `do_tangent` of `cc_miller_no_denom_proj`. -/
def projDoTangent (cca : F) (s : ProjState F) : PpCoeff F :=
  let a := FieldMethods.square s.z2
  let a := a * cca
  let b := FieldMethods.square (s.Z.coord zx)
  let t0 := FieldMethods.double b
  let b := b + t0
  let a := a + b
  let a := -a
  let b := s.z * s.z2
  let b := b * s.Z.coord zy
  let b := 2 * b
  let c := s.Z.coord zx * a
  let a := a * s.z2
  let t0 := FieldMethods.square (s.Z.coord zy)
  let t0 := 2 * t0
  let c := c + t0
  let c := -c
  ⟨a, b, c⟩

/-- `do_line` of `cc_miller_no_denom_proj`. -/
def projDoLine (P : PointS F) (s : ProjState F) : PpCoeff F :=
  let t0 := s.Z.coord zx * s.z
  let t1 := s.z2 * s.z
  let a := P.y * t1
  let a := s.Z.coord zy - a
  let b := P.x * t1
  let b := b - t0
  let t0 := t0 * P.y
  let c := s.Z.coord zy * P.x
  let c := t0 - c
  ⟨a, b, c⟩

/-- The loop of `cc_miller_no_denom_proj` from bit `m` down. -/
def ccMillerNoDenomProjLoop (cca : F) (q : ℕ) (P : PointS F) (Qx Qy : Polymod poly) :
    ℕ → ProjState F → DGt poly nqr → DGt poly nqr
  | 0, s, v => fqMul v (dMillerEvalfn nqr (projDoTangent zx zy cca s) Qx Qy)
  | m + 1, s, v =>
      let v := fqMul v (dMillerEvalfn nqr (projDoTangent zx zy cca s) Qx Qy)
      let s := projDouble zx zy cca s
      if mpzTstbit q (m + 1) then
        let v := fqMul v (dMillerEvalfn nqr (projDoLine zx zy P s) Qx Qy)
        let s := projMixin zx zy P s
        ccMillerNoDenomProjLoop cca q P Qx Qy m s (fqSquare v)
      else ccMillerNoDenomProjLoop cca q P Qx Qy m s (fqSquare v)

end Proj

/-- `cc_miller_no_denom_proj`: both pointers are bound to the first coordinate. -/
def ccMillerNoDenomProj (nqr cca : F) (q : ℕ) (P : PointS F) (Qx Qy : Polymod poly) :
    DGt poly nqr :=
  let Z := curveSet curveInit P
  let zx := Coord.x
  let zy := Coord.x
  ccMillerNoDenomProjLoop zx zy cca q P Qx Qy (mpzSizeinbase2 q - 2) ⟨Z, 1, 1⟩ 1

/-- The function that `cc_miller_no_denom_fn` points to. -/
inductive MillerMethod where
  | miller
  | millerAffine
  deriving DecidableEq, Repr

/-- `d_pairing_option_set`. -/
def dPairingOptionSet (method : MillerMethod) (key value : String) : MillerMethod :=
  if key = "method" then
    if value = "miller" then .miller
    else if value = "miller-affine" then .millerAffine
    else method
  else method

/-- A call through `cc_miller_no_denom_fn`. -/
def ccMillerNoDenomFn (method : MillerMethod) (nqr cca : F) (q : ℕ) (P : PointS F)
    (Qx Qy : Polymod poly) : Except Exit (DGt poly nqr) :=
  match method with
  | .miller => .ok (ccMillerNoDenomProj nqr cca q P Qx Qy)
  | .millerAffine => ccMillerNoDenomAffine nqr cca q P Qx Qy

/-- Adding to the constant coefficient of an element. -/
def addConstant (e : Polymod poly) (x : F) : Polymod poly :=
  ⟨fun i => if (i : ℕ) = 0 then e.coeff i + x else e.coeff i⟩

/-- `qpower` of `cc_tatepower`; `sign` is the case of a positive argument. -/
def qpower (p : MntPairingData poly nqr) (inn : DGt poly nqr) (sign : Bool) : DGt poly nqr :=
  let inre := coeffAt inn.re.coeff
  let inim := coeffAt inn.im.coeff
  let e2 := polymodConstMul (inre 1) p.xpowq
  let e0re := e2
  let e2 := polymodConstMul (inre 2) p.xpowq2
  let e0re := polymodAdd e0re e2
  let e0re := addConstant e0re (inre 0)
  if sign then
    let e2 := polymodConstMul (inim 1) p.xpowq
    let e0im := e2
    let e2 := polymodConstMul (inim 2) p.xpowq2
    let e0im := polymodAdd e0im e2
    let e0im := addConstant e0im (inim 0)
    ⟨e0re, e0im⟩
  else
    let e2 := polymodConstMul (inim 1) p.xpowq
    let e0im := polymodNeg e2
    let e2 := polymodConstMul (inim 2) p.xpowq2
    let e0im := polymodSub e0im e2
    let e0im := addConstant e0im (-inim 0)
    ⟨e0re, e0im⟩

/-- `cc_tatepower`: the values it leaves in `out` and in `in`. -/
def ccTatepower (p : MntPairingData poly nqr) (inn : DGt poly nqr) :
    Except Exit (DGt poly nqr × DGt poly nqr) := do
  if p.k = 6 then
    let e0 := qpower p inn true
    let e3 := e0
    let e0 : DGt poly nqr := ⟨inn.re, -inn.im⟩
    let e3 := fqMul e3 e0
    let e0 := qpower p inn false
    let e0 := fqMul e0 inn
    let e0 ← fqInvert e0
    let inn := fqMul e3 e0
    let e0 := inn
    let out ← lucasEven e0 p.phikonr
    return (out, inn)
  else
    let out ← elementPowMpz inn inn p.tateexp
    return (out, inn)

/-- `cc_tatepower` on two objects, which may be one: `in` is written before `out`. -/
def ccTatepowerAt {ι : Type*} [DecidableEq ι] (p : MntPairingData poly nqr)
    (objects : ι → DGt poly nqr) (out inn : ι) : Except Exit (ι → DGt poly nqr) :=
  (ccTatepower p (objects inn)).map fun values =>
    Function.update (Function.update objects inn values.2) out values.1

/-- `cc_pairing`. -/
def ccPairing (method : MillerMethod) (p : MntPairingData poly nqr) (in1 : PointS F)
    (in2 : PointS (Polymod poly)) : Except Exit (DGt poly nqr) := do
  let Qx := in2.x * p.nqrinv
  let Qy := in2.y * p.nqrinv2
  let out ← ccMillerNoDenomFn method nqr p.a p.r in1 Qx Qy
  let values ← ccTatepower p out
  return values.1

/-- The loop of `d_pairing_pp_init` from bit `m` down. -/
def dPairingPpInitLoop (cca : F) (q : ℕ) (P : PointS F) :
    ℕ → PointS F → List (PpCoeff F) → Except Exit (List (PpCoeff F))
  | 0, Z, pp => .ok (pp ++ [ppDoTangent cca Z])
  | m + 1, Z, pp => do
      let pp := pp ++ [ppDoTangent cca Z]
      let Z ← curveDouble cca Z Z
      if mpzTstbit q (m + 1) then
        let pp := pp ++ [doLine P Z]
        let Z ← curveMul cca Z Z P
        dPairingPpInitLoop cca q P m Z pp
      else dPairingPpInitLoop cca q P m Z pp

/-- `d_pairing_pp_init`. -/
def dPairingPpInit (cca : F) (q : ℕ) (P : PointS F) : Except Exit (PpTable F) := do
  let Z := curveSet curveInit P
  let m := mpzSizeinbase2 q - 2
  let triples ← dPairingPpInitLoop cca q P m Z []
  return ⟨2 * m, triples⟩

/-- `d_pairing_pp_clear`: the number of triples cleared. -/
def dPairingPpClear (q : ℕ) : ℕ := mpzSizeinbase2 q + mpzPopcount q - 3

/-- The loop of `d_pairing_pp_apply` from bit `m` down: the value and the number
of triples read. -/
def dPairingPpApplyLoop (coeff : ℕ → Option (PpCoeff F)) (q : ℕ) (Qx Qy : Polymod poly) :
    ℕ → ℕ → DGt poly nqr → Option (DGt poly nqr × ℕ)
  | 0, pp, out => do
      let line ← coeff pp
      let out := fqMul out (dMillerEvalfn nqr line Qx Qy)
      return (out, pp + 1)
  | m + 1, pp, out => do
      let line ← coeff pp
      let out := fqMul out (dMillerEvalfn nqr line Qx Qy)
      if mpzTstbit q (m + 1) then
        let line ← coeff (pp + 1)
        let out := fqMul out (dMillerEvalfn nqr line Qx Qy)
        dPairingPpApplyLoop coeff q Qx Qy m (pp + 2) (fqSquare out)
      else dPairingPpApplyLoop coeff q Qx Qy m (pp + 1) (fqSquare out)

/-- `d_pairing_pp_apply` up to its call of `cc_tatepower`. -/
def dPairingPpApply (p : MntPairingData poly nqr) (coeff : ℕ → Option (PpCoeff F))
    (in2 : PointS (Polymod poly)) : Option (DGt poly nqr × ℕ) :=
  let Qx := in2.x * p.nqrinv
  let Qy := in2.y * p.nqrinv2
  dPairingPpApplyLoop coeff p.r Qx Qy (mpzSizeinbase2 p.r - 2) 0 1

section Small

/-- A small parameter set: `y^2 = x^3 + 2 x + 1` over `F_5` has seven points. -/
def smallD : MntPairingData (![1, 1, 0] : Fin 3 → ZMod 5) 2 where
  a := 2
  b := 1
  r := 7
  k := 6
  nqrinv := ⟨![3, 0, 0]⟩
  nqrinv2 := ⟨![4, 0, 0]⟩
  xpowq := ⟨![1, 1, 4]⟩
  xpowq2 := ⟨![3, 3, 3]⟩
  phikonr := 3
  tateexp := 0

instance : Fact (Irreducible (monicPoly (![1, 1, 0] : Fin 3 → ZMod 5))) :=
  ⟨irreducible_monicPoly_three (by decide)⟩

theorem nonresidue_five : ¬IsSquare (2 : ZMod 5) := by decide

end Small

end Pbc.Ecc
