import Pbc.Ecc.DMiller
import Pbc.Ecc.EllnetBlock
import Pbc.Ecc.GTatepower
import Pbc.Elliptic.Net

/-!
# Elliptic net pairings of type G

The block of the net lies in the base field and its three terms beside the block in the
target field, whose coordinates are scaled separately. Up to scalars of `F_{q^5}` the last
of them is the product of the lines of a Miller loop.
-/

open Pbc.Arith Pbc.Gmp Pbc.Algebra Pbc.Elliptic Pbc.Number WeierstrassCurve.Affine

namespace Pbc.Ecc

/-- The terms `d_{k-1}, d_k, d_{k+1}`, over any field. -/
structure EllnetTriple (L : Type*) where
  dm1 : L
  d0 : L
  d1 : L

section Definitions

variable {F : Type*} [Field F] [DecidableEq F] [FpMethods F] {poly : Fin 5 → F} {nqr : F}

/-- Writing the constant coefficient of an element. -/
def setConstant (e : Polymod poly) (x : F) : Polymod poly :=
  ⟨fun i => if (i : ℕ) = 0 then x else e.coeff i⟩

/-- `polymod_const_mul` on both coordinates. -/
def dGtConstMul (c : F) (e : DGt poly nqr) : DGt poly nqr :=
  ⟨polymodConstMul c e.re, polymodConstMul c e.im⟩

/-- The factors `A` and `B` of `g_pairing_ellnet`, and the terms at `k = 1` beside the block.
Objects start as zero. -/
def gEllnetValues (p : GPairingData poly nqr) (x y : F) (x2 y2 : Polymod poly) :
    Except Exit (DGt poly nqr × DGt poly nqr × EllnetTriple (DGt poly nqr)) := do
  let d0 : DGt poly nqr := ⟨x2 * p.nqrinv, 0⟩
  let A := -d0
  let A : DGt poly nqr := ⟨addConstant A.re x, A.im⟩
  let C := FieldMethods.double x
  let d0 : DGt poly nqr := ⟨addConstant d0.re C, d0.im⟩
  let dm1 := fqSquare A
  let dm1 := fqMul d0 dm1
  let d1 : DGt poly nqr := ⟨0, y2 * p.nqrinv2⟩
  let d1 : DGt poly nqr := ⟨setConstant d1.re y, d1.im⟩
  let d1 := fqSquare d1
  let d1 := dm1 - d1
  let B ← fqInvert d1
  let A ← fqInvert A
  let d1 : DGt poly nqr := ⟨0, y2 * p.nqrinv2⟩
  let d1 : DGt poly nqr := ⟨setConstant d1.re (-y), d1.im⟩
  let d1 := fqMul d1 A
  let d1 := fqSquare d1
  let d1 := d0 - d1
  return (A, B, ⟨1, 1, d1⟩)

/-- The branch "double-and-add" on the terms beside the block. -/
def gEllnetDoubleAddValues (A B : DGt poly nqr) (w : EllnetPpSt F)
    (d : EllnetTriple (DGt poly nqr)) : EllnetTriple (DGt poly nqr) :=
  let u := fqSquare d.d0
  let v := fqMul d.dm1 d.d1
  let out := dGtConstMul w.t0 u
  let dm1 := dGtConstMul w.s0 v
  let dm1 := dm1 - out
  let out := dGtConstMul w.t1 u
  let d0 := dGtConstMul w.s1 v
  let d0 := d0 - out
  let d0 := fqMul d0 A
  let out := dGtConstMul w.t2 u
  let d1 := dGtConstMul w.s2 v
  let d1 := d1 - out
  let d1 := fqMul d1 B
  ⟨dm1, d0, d1⟩

/-- The branch "double" on the terms beside the block. -/
def gEllnetDoubleValues (A : DGt poly nqr) (w : EllnetPpSt F) (d : EllnetTriple (DGt poly nqr)) :
    EllnetTriple (DGt poly nqr) :=
  let u := fqSquare d.d0
  let v := fqMul d.dm1 d.d1
  let out := dGtConstMul w.tm1 u
  let dm1 := dGtConstMul w.sm1 v
  let dm1 := dm1 - out
  let out := dGtConstMul w.t0 u
  let d0 := dGtConstMul w.s0 v
  let d0 := d0 - out
  let out := dGtConstMul w.t1 u
  let d1 := dGtConstMul w.s1 v
  let d1 := d1 - out
  let d1 := fqMul d1 A
  ⟨dm1, d0, d1⟩

/-- The update of the terms beside the block by one bit of the order. -/
def gEllnetTurnValues (r : ℕ) (A B : DGt poly nqr) (m : ℕ) (w : EllnetPpSt F)
    (d : EllnetTriple (DGt poly nqr)) : EllnetTriple (DGt poly nqr) :=
  if mpzTstbit r m then gEllnetDoubleAddValues A B w d else gEllnetDoubleValues A w d

/-- The loop of `g_pairing_ellnet` from bit `m` down. -/
def gPairingEllnetLoop (r : ℕ) (C : F) (A B : DGt poly nqr) :
    ℕ → EllnetBlock F → EllnetTriple (DGt poly nqr) → EllnetBlock F × EllnetTriple (DGt poly nqr)
  | 0, c, d =>
      let w := ellnetTerms c
      (ellnetTurn r C 0 w, gEllnetTurnValues r A B 0 w.toEllnetPpSt d)
  | m + 1, c, d =>
      let w := ellnetTerms c
      gPairingEllnetLoop r C A B m (ellnetTurn r C (m + 1) w)
        (gEllnetTurnValues r A B (m + 1) w.toEllnetPpSt d)

/-- `g_pairing_ellnet` up to its call of `cc_tatepower`. -/
def gPairingEllnetValue (p : GPairingData poly nqr) (in1 : PointS F)
    (in2 : PointS (Polymod poly)) : Except Exit (DGt poly nqr) := do
  let (c, C) := ellnetBlockAb p.a p.b in1.x in1.y
  let (A, B, d) ← gEllnetValues p in1.x in1.y in2.x in2.y
  let m := mpzSizeinbase2 p.r - 2
  let (_, d) := gPairingEllnetLoop p.r C A B m c d
  return d.d1

/-- `g_pairing_ellnet`. -/
def gPairingEllnet (p : GPairingData poly nqr) (in1 : PointS F) (in2 : PointS (Polymod poly)) :
    Except Exit (DGt poly nqr) := do
  let d1 ← gPairingEllnetValue p in1 in2
  let values ← gCcTatepower p d1
  return values.1

/-- `cc_pairing` up to its call of `cc_tatepower`. -/
def gCcPairingValue (method : MillerMethod) (p : GPairingData poly nqr) (in1 : PointS F)
    (in2 : PointS (Polymod poly)) : Except Exit (DGt poly nqr) :=
  let Qx := in2.x * p.nqrinv
  let Qy := in2.y * p.nqrinv2
  ccMillerNoDenomFn method nqr p.a p.r in1 Qx Qy

/-- `cc_pairing`. -/
def gCcPairing (method : MillerMethod) (p : GPairingData poly nqr) (in1 : PointS F)
    (in2 : PointS (Polymod poly)) : Except Exit (DGt poly nqr) := do
  let out ← gCcPairingValue method p in1 in2
  let values ← gCcTatepower p out
  return values.1

/-- What `cc_miller_no_denom_fn` and `map` point to. -/
structure GMethods where
  miller : MillerMethod
  ellnet : Bool
  deriving DecidableEq, Repr

/-- `g_pairing_option_set`: no value takes `map` back to `cc_pairing`. -/
def gPairingOptionSet (methods : GMethods) (key value : String) : GMethods :=
  if key = "method" then
    if value = "miller" then { methods with miller := .miller }
    else if value = "miller-affine" then { methods with miller := .millerAffine }
    else if value = "shipsey-stange" then { methods with ellnet := true }
    else methods
  else methods

/-- A call through `map`. -/
def gPairingMap (methods : GMethods) (p : GPairingData poly nqr) (in1 : PointS F)
    (in2 : PointS (Polymod poly)) : Except Exit (DGt poly nqr) :=
  if methods.ellnet then gPairingEllnet p in1 in2 else gCcPairing methods.miller p in1 in2

end Definitions

section Initialisation

variable {F : Type*} [Field F] [DecidableEq F] [FpMethods F] {poly : Fin 5 → F} {nqr : F}
  [irreducible : Fact (Irreducible (monicPoly poly))]
  [nonsquare : Fact (∀ r : Polymod poly, r ^ 2 ≠ elementFieldToPolymod poly nqr + 0 * r)]

/-- The map from the twist is the one by the inverse of the nonresidue. -/
theorem GPairingData.Built.untwist {p : GPairingData poly nqr} {q : ℕ} (built : p.Built q)
    {a b : F} {x y : Polymod poly}
    (on : (twistCurve a b (elementFieldToPolymod poly nqr)).Nonsingular x y) (nonzero : y ≠ 0) :
    x * p.nqrinv = (TwistPoint.untwist on nonzero).x ∧
      y * p.nqrinv2 = (TwistPoint.untwist on nonzero).y := by
  have inverse : p.nqrinv = (elementFieldToPolymod poly nqr)⁻¹ :=
    Except.ok.inj (built.nqrinv.symm.trans (InvertsNonzero.invert_ok ne_zero_of_nonsquare))
  constructor
  · rw [inverse, TwistPoint.untwist]
  · rw [built.nqrinv2, inverse, sq, TwistPoint.untwist]

end Initialisation

section Values

variable {F : Type*} [Field F] [DecidableEq F] [FpMethods F] {poly : Fin 5 → F} {nqr : F}
  [irreducible : Fact (Irreducible (monicPoly poly))]

omit [DecidableEq F] [FpMethods F] irreducible in
/-- A constant coefficient written into zero is an element of the base. -/
theorem setConstant_zero (x : F) : setConstant (0 : Polymod poly) x = algebraMap F _ x := by
  rw [Polymod.algebraMap_eq]
  apply Polymod.ext
  funext i
  simp only [setConstant, elementFieldToPolymod, Polymod.coeff_zero]

omit [DecidableEq F] [FpMethods F] in
/-- Both coordinates scaled. -/
theorem dGtConstMul_eq (c : F) (e : DGt poly nqr) :
    dGtConstMul c e = e * algebraMap F _ c := by
  ext1
  · simp [dGtConstMul, Polymod.polymodConstMul_eq, mul_comm]
  · simp [dGtConstMul, Polymod.polymodConstMul_eq, mul_comm]

variable [nonsquare : Fact (∀ r : Polymod poly, r ^ 2 ≠ elementFieldToPolymod poly nqr + 0 * r)]
  {a b x y : F} (Q : TwistPoint a b (elementFieldToPolymod poly nqr))

/-- The factors are the corrections of the net, and the first terms are those at the point. -/
theorem gEllnetValues_net (two : (2 : F) ≠ 0) (on : (short a b).Nonsingular x y)
    (double : (.some x y on + .some x y on : (short a b).Point) ≠ 0) {p : GPairingData poly nqr}
    {x2 y2 : Polymod poly} (abscissa : x2 * p.nqrinv = Q.x) (ordinate : y2 * p.nqrinv2 = Q.y) :
    ∃ A B d, gEllnetValues p x y x2 y2 = .ok (algebraMap (Polymod poly) _ A, B, d) ∧
      A * (algebraMap F _ x - Q.x) = 1 ∧
      B * (algebraMap F _ x - Q.sumAbscissa (-.some x y on)) = algebraMap _ _ A ^ 2 ∧
      Q.NetAt (.some x y on) 1 d.dm1 d.d0 d.d1 := by
  have opposite := short_nonsingular_neg on
  have negated := short_neg_some on
  have apart : algebraMap F (Polymod poly) x - Q.x ≠ 0 := by
    rw [← neg_sub]
    exact neg_ne_zero.mpr (Q.x_ne on)
  have inverse := inv_mul_cancel₀ apart
  generalize (algebraMap F (Polymod poly) x - Q.x)⁻¹ = A at inverse
  have away := Q.sub_sumAbscissa_of_inverse on inverse
  have distance := Q.sub_sumAbscissa_of_inverse opposite inverse
  rw [← negated, map_neg, neg_neg] at distance
  have far : algebraMap F _ x - Q.sumAbscissa (-.some x y on) ≠ 0 := by
    apply (Q.sub_sumAbscissa_class two (A := -.some x y on) (B := .some x y on)
      (neg_ne_zero.mpr (Point.some_ne_zero on)) (Point.some_ne_zero on) _).1
    rw [← neg_add]
    exact neg_ne_zero.mpr double
  have image := congrArg (algebraMap (Polymod poly) (DGt poly nqr)) inverse
  rw [map_mul, map_one] at image
  obtain ⟨D, product⟩ : ∃ D, (algebraMap F _ (x + x) + algebraMap (Polymod poly) _ Q.x) *
        algebraMap _ (DGt poly nqr) (algebraMap F _ x - Q.x) ^ 2 -
          (⟨algebraMap F _ y, Q.y⟩ : DGt poly nqr) ^ 2 = D := ⟨_, rfl⟩
  have cleared : D * algebraMap _ _ A ^ 2 = algebraMap F _ x - Q.sumAbscissa (-.some x y on) := by
    rw [distance, ← product]
    linear_combination (algebraMap F _ (x + x) + algebraMap (Polymod poly) _ Q.x) *
      (algebraMap _ (DGt poly nqr) A * algebraMap _ _ (algebraMap F _ x - Q.x) + 1) * image
  have invertible : D ≠ 0 := left_ne_zero_of_mul (cleared.symm ▸ far)
  have first : (⟨addConstant (-(⟨Q.x, 0⟩ : DGt poly nqr)).re x, (-(⟨Q.x, 0⟩ : DGt poly nqr)).im⟩ :
      DGt poly nqr) = algebraMap (Polymod poly) _ (algebraMap F _ x - Q.x) := by
    rw [addConstant_eq]
    ext1
    · simp
      ring
    · simp
  have second : (⟨addConstant Q.x (FieldMethods.double x), 0⟩ : DGt poly nqr) =
      algebraMap F _ (x + x) + algebraMap (Polymod poly) _ Q.x := by
    rw [addConstant_eq, FieldMethods.double_eq]
    ext1
    · simp
      ring
    · simp
  have inverted : (algebraMap (Polymod poly) (DGt poly nqr) (algebraMap F _ x - Q.x))⁻¹ =
      algebraMap _ _ A := inv_eq_of_mul_eq_one_left image
  have nonzero := right_ne_zero_of_mul_eq_one image
  refine ⟨A, D⁻¹, ⟨1, 1, algebraMap F _ x - Q.sumAbscissa (.some x y on)⟩, ?_, inverse, ?_, ?_⟩
  · simp only [gEllnetValues, abscissa, ordinate, setConstant_zero, first, second, fqSquare_eq,
      fqMul_eq, ← sq, product, fqInvert_eq invertible, fqInvert_eq nonzero, inverted, bind,
      Except.bind, pure, Except.pure, map_neg, away]
  · rw [← cleared, ← mul_assoc, inv_mul_cancel₀ invertible, one_mul]
  · exact TwistPoint.NetAt.one two (Point.some_ne_zero on) double

/-- One bit of the order moves the terms beside the block along with it. -/
theorem gEllnetTurnValues_net {Q : TwistPoint a b (elementFieldToPolymod poly nqr)}
    {on : (short a b).Nonsingular x y} {N : ℕ}
    (finite : ∀ j, 0 < j → j ≤ N → j • (.some x y on : (short a b).Point) ≠ 0)
    (nonzero : 2 * y ≠ 0) {A : Polymod poly} {B : DGt poly nqr}
    (inverse : A * (algebraMap F _ x - Q.x) = 1)
    (value : B * (algebraMap F _ x - Q.sumAbscissa (-.some x y on)) = algebraMap _ _ A ^ 2)
    {k : ℕ} (positive : 0 < k) (bounded : k + 3 ≤ N) (whole : 2 * k ≤ N) {c : EllnetBlock F}
    {d : EllnetTriple (DGt poly nqr)} (block : c.Holds a b x y k)
    (net : Q.NetAt (.some x y on) k d.dm1 d.d0 d.d1) (r m : ℕ) :
    Q.NetAt (.some x y on) (2 * k + (r.testBit m).toNat)
      (gEllnetTurnValues r (algebraMap _ _ A) B m (ellnetTerms c).toEllnetPpSt d).dm1
      (gEllnetTurnValues r (algebraMap _ _ A) B m (ellnetTerms c).toEllnetPpSt d).d0
      (gEllnetTurnValues r (algebraMap _ _ A) B m (ellnetTerms c).toEllnetPpSt d).d1 := by
  cases bit : r.testBit m with
  | true =>
    have taken : mpzTstbit r m = true := bit
    have step := net.doubleAdd finite nonzero inverse positive bounded whole value
    simp only [gEllnetTurnValues, taken, if_true, gEllnetDoubleAddValues, ellnetTerms,
      dGtConstMul_eq, fqSquare_eq, fqMul_eq, FieldMethods.square_eq, ← sq, block.cm1, block.c0,
      block.c1, block.c2, block.c3]
    exact step
  | false =>
    have skipped : mpzTstbit r m = false := bit
    have step := net.double finite nonzero inverse positive (by omega) whole
    simp only [gEllnetTurnValues, skipped, Bool.false_eq_true, if_false, gEllnetDoubleValues,
      ellnetTerms, dGtConstMul_eq, fqSquare_eq, fqMul_eq, FieldMethods.square_eq, ← sq, block.cm2,
      block.cm1, block.c0, block.c1, block.c2]
    exact step

/-- The loop reaches the terms of the net at the order. -/
theorem gPairingEllnetLoop_net {Q : TwistPoint a b (elementFieldToPolymod poly nqr)}
    {on : (short a b).Nonsingular x y} {r : ℕ} (odd : Odd r) (large : 7 ≤ r)
    (order : addOrderOf (.some x y on : (short a b).Point) = r) (nonzero : 2 * y ≠ 0) {C : F}
    {A : Polymod poly} {B : DGt poly nqr} (inverseC : C * (2 * y) = 1)
    (inverse : A * (algebraMap F _ x - Q.x) = 1)
    (value : B * (algebraMap F _ x - Q.sumAbscissa (-.some x y on)) = algebraMap _ _ A ^ 2)
    (m : ℕ) (inside : m < r.log2) {c : EllnetBlock F} {d : EllnetTriple (DGt poly nqr)}
    (block : c.Holds a b x y (r >>> (m + 1) : ℕ))
    (net : Q.NetAt (.some x y on) (r >>> (m + 1)) d.dm1 d.d0 d.d1) :
    Q.NetAt (.some x y on) r (gPairingEllnetLoop r C (algebraMap _ _ A) B m c d).2.dm1
      (gPairingEllnetLoop r C (algebraMap _ _ A) B m c d).2.d0
      (gPairingEllnetLoop r C (algebraMap _ _ A) B m c d).2.d1 := by
  have finite (j : ℕ) (positive : 0 < j) (below : j ≤ r - 1) :
      j • (.some x y on : (short a b).Point) ≠ 0 :=
    nsmul_ne_zero order (Nat.not_dvd_of_pos_of_lt positive (by omega))
  induction m generalizing c d with
  | zero =>
    obtain ⟨positive, half⟩ := shiftRight_succ_bounds odd inside
    have step := gEllnetTurnValues_net finite nonzero inverse value positive (by omega) (by omega)
      block net r 0
    rw [← shiftRight_eq_append] at step
    exact step
  | succ m ih =>
    obtain ⟨positive, half⟩ := shiftRight_succ_bounds odd inside
    have step := gEllnetTurnValues_net finite nonzero inverse value positive (by omega) (by omega)
      block net r (m + 1)
    rw [← shiftRight_eq_append] at step
    exact ih (by omega) (ellnetTurn_shiftRight inverseC block) step

end Values

section Agreement

variable {F : Type*} [Field F] [DecidableEq F] [FpMethods F] {poly : Fin 5 → F} {nqr : F}
  [irreducible : Fact (Irreducible (monicPoly poly))]
  [nonsquare : Fact (∀ r : Polymod poly, r ^ 2 ≠ elementFieldToPolymod poly nqr + 0 * r)]
  {a b : F} {r : ℕ} {p : GPairingData poly nqr} {P : (short a b).Point} {x y : Polymod poly}

/-- The value that the elliptic net hands to the final powering. -/
theorem gPairingEllnetValue_ok (two : (2 : F) ≠ 0) {q : ℕ}
    (initialised : pairingInitGParam poly nqr a b q r = .ok p) (odd : Odd r) (large : 7 ≤ r)
    (order : addOrderOf P = r)
    (on : (twistCurve a b (elementFieldToPolymod poly nqr)).Nonsingular x y) (nonzero : y ≠ 0)
    {in1 : PointS F} (represents : in1.Represents P) :
    ∃ d1, gPairingEllnetValue p in1 ⟨false, x, y⟩ = .ok d1 ∧
      (TwistPoint.untwist on nonzero).Accumulates P r d1 := by
  obtain ⟨rfl, rfl, rfl, built⟩ := pairingInitGParam_built initialised
  obtain ⟨abscissa, ordinate⟩ := built.untwist on nonzero
  have single := exists_nsmul_eq_some odd order one_pos (by omega)
  obtain ⟨x₁, y₁, on₁, point, axis⟩ := single
  rw [one_nsmul] at point
  subst point
  rw [PointS.represents_some_iff] at represents
  subst represents
  have double : (.some x₁ y₁ on₁ + .some x₁ y₁ on₁ : (short p.a p.b).Point) ≠ 0 := by
    rw [← two_nsmul]
    exact nsmul_ne_zero order (Nat.not_dvd_of_pos_of_lt two_pos (by omega))
  obtain ⟨block, inverseC⟩ := ellnetBlockAb_holds p.a p.b x₁ (mul_ne_zero two axis)
  obtain ⟨A, B, d, start, inverse, value, net⟩ :=
    gEllnetValues_net (TwistPoint.untwist on nonzero) two on₁ double abscissa ordinate
  have positive : 0 < p.r.log2 := log2_pos_of_two_le (by omega)
  have top : p.r >>> (p.r.log2 - 1 + 1) = 1 := by
    rw [Nat.sub_add_cancel positive]
    exact shiftRight_log2 (by omega)
  have run := gPairingEllnetLoop_net odd large order (mul_ne_zero two axis) inverseC inverse value
    (p.r.log2 - 1) (by omega) (by rw [top]; exact block) (by rw [top]; exact net)
  refine ⟨_, ?_, run.next.beyond (addOrderOf_nsmul_self order)⟩
  simp only [gPairingEllnetValue, start, bind, Except.bind, pure, Except.pure]
  rfl

/-- The value that the Miller loop hands to the final powering. -/
theorem gCcPairingValue_ok (two : (2 : F) ≠ 0) {q : ℕ}
    (initialised : pairingInitGParam poly nqr a b q r = .ok p) (odd : Odd r)
    (order : addOrderOf P = r) (finite : P ≠ 0)
    (on : (twistCurve a b (elementFieldToPolymod poly nqr)).Nonsingular x y) (nonzero : y ≠ 0)
    {in1 : PointS F} (represents : in1.Represents P) :
    ∃ f, gCcPairingValue .millerAffine p in1 ⟨false, x, y⟩ = .ok f ∧
      (TwistPoint.untwist on nonzero).Accumulates P r f := by
  obtain ⟨rfl, rfl, rfl, built⟩ := pairingInitGParam_built initialised
  obtain ⟨abscissa, ordinate⟩ := built.untwist on nonzero
  obtain ⟨f, returned, run⟩ := ccMillerNoDenomAffine_ok two (TwistPoint.untwist on nonzero) odd
    order represents finite
  refine ⟨f, ?_, run⟩
  simp only [gCcPairingValue, ccMillerNoDenomFn, abscissa, ordinate]
  exact returned

end Agreement

section Power

variable {F : Type*} [Field F] [Fintype F] [DecidableEq F] [FpMethods F] {poly : Fin 5 → F}
  {nqr : F} [irreducible : Fact (Irreducible (monicPoly poly))]

/-- The values that the two methods hand to the final powering have one power
`(q^10 - 1) / r`. -/
theorem gPairingEllnet_pow_eq (two : (2 : F) ≠ 0) (nonresidue : ¬IsSquare nqr) {a b : F} {r : ℕ}
    {p : GPairingData poly nqr}
    (initialised : pairingInitGParam poly nqr a b (Fintype.card F) r = .ok p)
    (divides : r ∣ cyclotomicTen (Fintype.card F)) (odd : Odd r) (large : 7 ≤ r)
    {P : (short a b).Point} (order : addOrderOf P = r) {x y : Polymod poly}
    (on : (twistCurve a b (elementFieldToPolymod poly nqr)).Nonsingular x y) (nonzero : y ≠ 0)
    {in1 : PointS F} (represents : in1.Represents P) :
    ∃ d1 f, gPairingEllnetValue p in1 ⟨false, x, y⟩ = .ok d1 ∧
      gCcPairingValue .millerAffine p in1 ⟨false, x, y⟩ = .ok f ∧
      d1 ^ ((Fintype.card F ^ 10 - 1) / r) = f ^ ((Fintype.card F ^ 10 - 1) / r) := by
  have nonsquare : Fact (∀ r : Polymod poly, r ^ 2 ≠ elementFieldToPolymod poly nqr + 0 * r) :=
    odd_extension_nonresidue two nonresidue (by decide)
  have finite : P ≠ 0 := ne_zero_of_order order (by omega)
  obtain ⟨d1, ellnet, left⟩ :=
    gPairingEllnetValue_ok two initialised odd large order on nonzero represents
  obtain ⟨f, miller, right⟩ :=
    gCcPairingValue_ok two initialised odd order finite on nonzero represents
  obtain ⟨c, unit, scaled⟩ := ScalarClass.exists_scalar_of_eq left.nonzero right.nonzero
    (left.value.trans right.value.symm)
  have whole : Fintype.card F ^ 5 - 1 ∣ (Fintype.card F ^ 10 - 1) / r := by
    rw [← unit_exponent_ten, Nat.mul_div_assoc _ divides, mul_assoc]
    exact Nat.dvd_mul_right _ _
  refine ⟨d1, f, ellnet, miller, ?_⟩
  rw [scaled, mul_pow, ← map_pow, scalar_pow_of_dvd whole c unit, map_one, one_mul]

/-- The values at a point of order 41. -/
theorem gPairingEllnet_pow_eq_small :
    ∃ d1 f, gPairingEllnetValue smallG ⟨false, 1, 6⟩ ⟨false, 0, ⟨![9, 0, 0, 0, 0]⟩⟩ = .ok d1 ∧
      gCcPairingValue .millerAffine smallG ⟨false, 1, 6⟩ ⟨false, 0, ⟨![9, 0, 0, 0, 0]⟩⟩ = .ok f ∧
      d1 ^ ((Fintype.card (ZMod 31) ^ 10 - 1) / 41) =
        f ^ ((Fintype.card (ZMod 31) ^ 10 - 1) / 41) := by
  have two : (2 : ZMod 31) ≠ 0 := by decide
  have on : (short (1 : ZMod 31) 3).Nonsingular 1 6 :=
    short_nonsingular two (by decide) (by decide)
  have represents : PointS.Represents ⟨false, 1, 6⟩ (.some 1 6 on : (short (1 : ZMod 31) 3).Point) :=
    rfl
  have order : addOrderOf (.some 1 6 on : (short (1 : ZMod 31) 3).Point) = 41 :=
    addOrderOf_eq_of_curvePowMpz (by norm_num) two represents rfl (by decide)
  have axis : (⟨![9, 0, 0, 0, 0]⟩ : Polymod smallQuintic) ≠ 0 := by decide
  have twist : (twistCurve (1 : ZMod 31) 3 (elementFieldToPolymod smallQuintic 3)).Nonsingular 0
      ⟨![9, 0, 0, 0, 0]⟩ :=
    short_nonsingular (two_ne_zero_extension two) (by decide) axis
  exact gPairingEllnet_pow_eq two nonresidue_three smallG_initialised (by decide)
    (by decide) (by decide) order twist axis represents

end Power

end Pbc.Ecc
