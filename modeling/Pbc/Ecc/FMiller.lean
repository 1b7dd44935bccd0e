import Pbc.Ecc.DParam
import Pbc.Ecc.FParam

/-!
# The Miller loop of type F

The lines of the loop have three coefficients over `F_{q^12}`, with the powers 0, 3 and 4 of
`x`. `f_miller_evalfn` multiplies by such a line one coefficient at a time, in temporaries
that every term shares.
-/

open Pbc.Arith Pbc.Gmp Pbc.Algebra

namespace Pbc.Ecc

section Operations

variable {F : Type*} [CommRing F] {beta : F} {poly : Fin 6 → FqData beta}

/-- The temporaries `e0` and `e1` of `cc_miller_no_denom`. -/
structure FTemps (K : Type*) where
  e0 : Fin 6 → K
  e1 : K

/-- `do_term`, which leaves the coefficient of `x^i` in `e0`. -/
def fDoTerm (line : PpCoeff F) (Qx Qy negalpha : FqData beta) (v : Polymod poly) (i j k : Fin 6)
    (flag : ℕ) (t : FTemps (FqData beta)) : FTemps (FqData beta) :=
  let e1 := v.coeff j * Qx
  let e1 := if flag = 1 then e1 * negalpha else e1
  let e1 : FqData beta := ⟨e1.re * line.a, e1.im⟩
  let e1 : FqData beta := ⟨e1.re, e1.im * line.a⟩
  let e2 := v.coeff k * Qy
  let e2 : FqData beta := ⟨e2.re * line.b, e2.im⟩
  let e2 : FqData beta := ⟨e2.re, e2.im * line.b⟩
  let e2 := e2 + e1
  let e2 := if flag = 2 then e2 * negalpha else e2
  let e1 : FqData beta := ⟨(v.coeff i).re * line.c, e1.im⟩
  let e1 : FqData beta := ⟨e1.re, (v.coeff i).im * line.c⟩
  let e2 := e2 + e1
  ⟨Function.update t.e0 i e2, e1⟩

/-- `f_miller_evalfn`. -/
def fMillerEvalfn (line : PpCoeff F) (Qx Qy negalpha : FqData beta) (v : Polymod poly)
    (t : FTemps (FqData beta)) : Polymod poly × FTemps (FqData beta) :=
  let t := fDoTerm line Qx Qy negalpha v 0 2 3 2 t
  let t := fDoTerm line Qx Qy negalpha v 1 3 4 2 t
  let t := fDoTerm line Qx Qy negalpha v 2 4 5 2 t
  let t := fDoTerm line Qx Qy negalpha v 3 5 0 1 t
  let t := fDoTerm line Qx Qy negalpha v 4 0 1 0 t
  let t := fDoTerm line Qx Qy negalpha v 5 1 2 0 t
  (⟨t.e0⟩, t)

/-- The line as an element, `a Qx x^4 + b Qy x^3 + c`. -/
def fLine (poly : Fin 6 → FqData beta) (line : PpCoeff F) (Qx Qy : FqData beta) : Polymod poly :=
  ⟨![⟨line.c, 0⟩, 0, 0, ⟨Qy.re * line.b, Qy.im * line.b⟩, ⟨Qx.re * line.a, Qx.im * line.a⟩, 0]⟩

end Operations

section Sparse

variable {F : Type*} [CommRing F] {beta : F} {poly : Fin 6 → FqData beta}

/-- Both parts of an element times a scalar of the base. -/
theorem scaled_parts (x : FqData beta) (s : F) :
    (⟨x.re * s, x.im * s⟩ : FqData beta) = x * algebraMap F _ s := by
  ext
  · simp
  · simp

/-- The factor that a flag asks for. -/
def flagFactor (negalpha : FqData beta) (flag wanted : ℕ) : FqData beta :=
  if flag = wanted then negalpha else 1

/-- One term: a coefficient of the product, where the flag says which summands wrapped. -/
theorem fDoTerm_e0 (line : PpCoeff F) (Qx Qy negalpha : FqData beta) (v : Polymod poly)
    (i j k : Fin 6) (flag : ℕ) (t : FTemps (FqData beta)) :
    (fDoTerm line Qx Qy negalpha v i j k flag t).e0 = Function.update t.e0 i
      ((v.coeff k * (Qy * algebraMap F _ line.b) +
          v.coeff j * (Qx * algebraMap F _ line.a) * flagFactor negalpha flag 1) *
        flagFactor negalpha flag 2 + v.coeff i * algebraMap F _ line.c) := by
  simp only [fDoTerm, scaled_parts, flagFactor]
  split_ifs
  all_goals
    congr 1
    ring

/-- Six terms write every coefficient, whatever the temporaries held. -/
theorem fMillerEvalfn_coeff (line : PpCoeff F) (Qx Qy negalpha : FqData beta) (v : Polymod poly)
    (t : FTemps (FqData beta)) :
    let A := Qx * algebraMap F _ line.a
    let B := Qy * algebraMap F _ line.b
    let C := algebraMap F (FqData beta) line.c
    (fMillerEvalfn line Qx Qy negalpha v t).1 = ⟨![
      (v.coeff 3 * B + v.coeff 2 * A) * negalpha + v.coeff 0 * C,
      (v.coeff 4 * B + v.coeff 3 * A) * negalpha + v.coeff 1 * C,
      (v.coeff 5 * B + v.coeff 4 * A) * negalpha + v.coeff 2 * C,
      v.coeff 0 * B + v.coeff 5 * A * negalpha + v.coeff 3 * C,
      v.coeff 1 * B + v.coeff 0 * A + v.coeff 4 * C,
      v.coeff 2 * B + v.coeff 1 * A + v.coeff 5 * C]⟩ := by
  intro A B C
  apply Polymod.ext
  funext i
  simp only [fMillerEvalfn, fDoTerm_e0, flagFactor]
  fin_cases i
  all_goals simp [Function.update, A, B, C]

end Sparse

section Reduced

variable {F : Type*} [CommRing F] {beta : F} {alpha : FqData beta}

/-- The class of a line. -/
theorem quotient_fLine (line : PpCoeff F) (Qx Qy : FqData beta) :
    (fLine (fPoly alpha) line Qx Qy).quotient =
      AdjoinRoot.of _ (algebraMap F _ line.a * Qx) * root (fPoly alpha) ^ 4 +
        AdjoinRoot.of _ (algebraMap F _ line.b * Qy) * root (fPoly alpha) ^ 3 +
        AdjoinRoot.of _ (algebraMap F _ line.c) := by
  have constant : (⟨line.c, 0⟩ : FqData beta) = algebraMap F _ line.c := rfl
  rw [Polymod.quotient_eq_sum_six]
  simp only [fLine, Matrix.cons_val, scaled_parts, constant, map_zero, map_mul]
  ring

/-- The class that a step leaves. -/
theorem quotient_fMillerEvalfn (line : PpCoeff F) (Qx Qy : FqData beta)
    (v : Polymod (fPoly alpha)) (t : FTemps (FqData beta)) :
    (fMillerEvalfn line Qx Qy (-alpha) v t).1.quotient =
      v.quotient * (fLine (fPoly alpha) line Qx Qy).quotient := by
  have sixth := root_pow_six alpha
  rw [fMillerEvalfn_coeff, quotient_fLine, Polymod.quotient_eq_sum_six,
    Polymod.quotient_eq_sum_six v]
  simp only [Matrix.cons_val, map_add, map_mul]
  generalize AdjoinRoot.of (monicPoly (fPoly alpha)) = of at sixth ⊢
  generalize root (fPoly alpha) = x at sixth ⊢
  -- the coefficient is what is left of the unreduced product above `x^5`
  linear_combination -(of (v.coeff 2) * (of Qx * of (algebraMap F _ line.a)) +
    of (v.coeff 3) * (of Qy * of (algebraMap F _ line.b)) +
    (of (v.coeff 3) * (of Qx * of (algebraMap F _ line.a)) +
      of (v.coeff 4) * (of Qy * of (algebraMap F _ line.b))) * x +
    (of (v.coeff 4) * (of Qx * of (algebraMap F _ line.a)) +
      of (v.coeff 5) * (of Qy * of (algebraMap F _ line.b))) * x ^ 2 +
    of (v.coeff 5) * (of Qx * of (algebraMap F _ line.a)) * x ^ 3) * sixth

/-- The step multiplies by the line: the value in every coefficient is that of the general
product, and as a class it is the product with `a Qx x^4 + b Qy x^3 + c`. -/
theorem fMillerEvalfn_exact (line : PpCoeff F) (Qx Qy : FqData beta)
    (v : Polymod (fPoly alpha)) (t : FTemps (FqData beta)) :
    let step := (fMillerEvalfn line Qx Qy (-alpha) v t).1
    step = polymodMulDegree6 v (fLine (fPoly alpha) line Qx Qy) ∧
      step.quotient = v.quotient *
        (AdjoinRoot.of _ (algebraMap F _ line.a * Qx) * root (fPoly alpha) ^ 4 +
          AdjoinRoot.of _ (algebraMap F _ line.b * Qy) * root (fPoly alpha) ^ 3 +
          AdjoinRoot.of _ (algebraMap F _ line.c)) := by
  intro step
  have product := quotient_fMillerEvalfn line Qx Qy v t
  constructor
  · apply Polymod.quotient_injective
    rw [product, Polymod.quotient_mulDegree6]
  · rw [product, quotient_fLine]

end Reduced

section Loop

variable {F : Type*} [Field F] [DecidableEq F] [FpMethods F] {beta : F}
  {poly : Fin 6 → FqData beta}

/-- `do_tangent` of the loop, where the coefficient `a` of the curve is zero. -/
def fDoTangent (Z : PointS F) : PpCoeff F :=
  let a := FieldMethods.square Z.x
  let a := 3 * a
  let a := -a
  let b := Z.y + Z.y
  let t0 := b * Z.y
  let c := a * Z.x
  let c := c + t0
  let c := -c
  ⟨a, b, c⟩

/-- The loop of `cc_miller_no_denom` from bit `m` down. -/
def fMillerNoDenomLoop (q : ℕ) (P : PointS F) (Qx Qy negalpha : FqData beta) :
    ℕ → PointS F → Polymod poly → FTemps (FqData beta) → Except Exit (Polymod poly)
  | 0, Z, v, t => .ok (fMillerEvalfn (fDoTangent Z) Qx Qy negalpha v t).1
  | m + 1, Z, v, t => do
      let (v, t) := fMillerEvalfn (fDoTangent Z) Qx Qy negalpha v t
      let Z ← curveDouble 0 Z Z
      if mpzTstbit q (m + 1) then
        let (v, t) := fMillerEvalfn (doLine P Z) Qx Qy negalpha v t
        let Z ← curveMul 0 Z Z P
        fMillerNoDenomLoop q P Qx Qy negalpha m Z (FieldMethods.square v) t
      else fMillerNoDenomLoop q P Qx Qy negalpha m Z (FieldMethods.square v) t

/-- `cc_miller_no_denom` of type F. -/
def fMillerNoDenom (q : ℕ) (P : PointS F) (Qx Qy negalpha : FqData beta) :
    Except Exit (Polymod poly) :=
  fMillerNoDenomLoop q P Qx Qy negalpha (mpzSizeinbase2 q - 2) P 1 ⟨0, 0⟩

/-- `f_pairing`. -/
def fPairing (p : FPairingData (FqData beta)) (r : ℕ) (in1 : PointS F) (in2 : PointS (FqData beta)) :
    Except Exit (Polymod poly) := do
  let x := in2.x * p.negalphainv
  let y := in2.y * p.negalphainv
  let out ← fMillerNoDenom r in1 x y p.negalpha
  fTatepower p out

end Loop

end Pbc.Ecc
