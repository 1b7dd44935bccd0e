import Pbc.Ecc.EParam
import Pbc.Ecc.GEllnet
import Pbc.Elliptic.RationalNet

/-!
# Elliptic net pairings of type E

Both points lie over `F_q`, so the block and the three terms beside it are elements of one
field and nothing is lost up to scalars. The loop computes the terms of the net exactly;
the one beyond the order is divided by the division polynomial of the block.
-/

open Pbc.Arith Pbc.Gmp Pbc.Algebra Pbc.Elliptic Pbc.Number WeierstrassCurve.Affine

namespace Pbc.Ecc

section Definitions

variable {F : Type*} [Field F] [DecidableEq F] [FpMethods F]

/-- The factors `A` and `B` of `e_pairing_ellnet`, and the terms at `k = 1` beside the block. -/
def eEllnetValues (x y x2 y2 : F) : F × F × EllnetTriple F :=
  let A := x - x2
  let C := FieldMethods.double x
  let C := C + x2
  let cm1 := FieldMethods.square A
  let cm1 := C * cm1
  let d1 := y + y2
  let d1 := FieldMethods.square d1
  let B := cm1 - d1
  let B := zpInvert B
  let A := zpInvert A
  let d1 := y - y2
  let d1 := d1 * A
  let d1 := FieldMethods.square d1
  let d1 := C - d1
  (A, B, ⟨1, 1, d1⟩)

/-- The branch "double-and-add" on the terms beside the block. -/
def eEllnetDoubleAddValues (A B : F) (w : EllnetPpSt F) (d : EllnetTriple F) : EllnetTriple F :=
  let u := FieldMethods.square d.d0
  let v := d.dm1 * d.d1
  let out := u * w.t0
  let dm1 := v * w.s0
  let dm1 := dm1 - out
  let out := u * w.t1
  let d0 := v * w.s1
  let d0 := d0 - out
  let d0 := d0 * A
  let out := u * w.t2
  let d1 := v * w.s2
  let d1 := d1 - out
  let d1 := d1 * B
  ⟨dm1, d0, d1⟩

/-- The branch "double" on the terms beside the block. -/
def eEllnetDoubleValues (A : F) (w : EllnetPpSt F) (d : EllnetTriple F) : EllnetTriple F :=
  let u := FieldMethods.square d.d0
  let v := d.dm1 * d.d1
  let out := u * w.tm1
  let dm1 := v * w.sm1
  let dm1 := dm1 - out
  let out := u * w.t0
  let d0 := v * w.s0
  let d0 := d0 - out
  let out := u * w.t1
  let d1 := v * w.s1
  let d1 := d1 - out
  let d1 := d1 * A
  ⟨dm1, d0, d1⟩

/-- The update of the terms beside the block by one bit of the order. -/
def eEllnetTurnValues (r : ℕ) (A B : F) (m : ℕ) (w : EllnetPpSt F) (d : EllnetTriple F) :
    EllnetTriple F :=
  if mpzTstbit r m then eEllnetDoubleAddValues A B w d else eEllnetDoubleValues A w d

/-- The loop of `e_pairing_ellnet` from bit `m` down. -/
def ePairingEllnetLoop (r : ℕ) (C A B : F) :
    ℕ → EllnetBlock F → EllnetTriple F → EllnetBlock F × EllnetTriple F
  | 0, c, d =>
      let w := ellnetTerms c
      (ellnetTurn r C 0 w, eEllnetTurnValues r A B 0 w.toEllnetPpSt d)
  | m + 1, c, d =>
      let w := ellnetTerms c
      ePairingEllnetLoop r C A B m (ellnetTurn r C (m + 1) w)
        (eEllnetTurnValues r A B (m + 1) w.toEllnetPpSt d)

/-- `e_pairing_ellnet` up to its final powering, for the order `pairing->r`. -/
def ePairingEllnetValue (p : EPairingData F) (r : ℕ) (in1 in2 : PointS F) : F :=
  let (c, C) := ellnetBlockAb p.a p.b in1.x in1.y
  let (A, B, d) := eEllnetValues in1.x in1.y in2.x in2.y
  let m := mpzSizeinbase2 r - 2
  let (c, d) := ePairingEllnetLoop r C A B m c d
  let c1 := zpInvert c.c1
  d.d1 * c1

/-- `e_pairing_ellnet`. -/
def ePairingEllnet (p : EPairingData F) (r : ℕ) (in1 in2 : PointS F) : F :=
  ePairingEllnetValue p r in1 in2 ^ p.phikonr

/-- A call through `map`. -/
def ePairingMap (methods : EMethods) (p : EPairingData F) (r : ℕ) (in1 in2 : PointS F) :
    Except Exit F :=
  if methods.ellnet then .ok (ePairingEllnet p r in1 in2) else ePairing methods p in1 in2

end Definitions

section Loop

variable {F : Type*} [Field F] [DecidableEq F] [FpMethods F] {a b x y : F}
  {on : (short a b).Nonsingular x y} {Q : FinitePoint a b}
  (outside : ∀ k : ℤ, k • (.some x y on : (short a b).Point) ≠ Q.point)

omit [FpMethods F] in
/-- The terms beside the block are those of the net around the index. -/
structure EllnetTriple.NetAt (d : EllnetTriple F) (Q : FinitePoint a b) (P : (short a b).Point)
    (k : ℤ) : Prop where
  below : d.dm1 = Q.net P (k - 1)
  current : d.d0 = Q.net P k
  above : d.d1 = Q.net P (k + 1)

include outside

/-- The factors divide by the terms of negative index, and the first terms are those at the
point. -/
theorem eEllnetValues_net :
    (eEllnetValues x y Q.x Q.y).1 * Q.net (.some x y on) (-1) = 1 ∧
      (eEllnetValues x y Q.x Q.y).2.1 * Q.net (.some x y on) (-2) = 1 ∧
      (eEllnetValues x y Q.x Q.y).2.2.NetAt Q (.some x y on) 1 := by
  obtain ⟨on', negated⟩ := FinitePoint.neg_point on
  have terms := Q.net_ne_zero outside (Point.some_ne_zero on)
  have neighbours := Q.net_neighbours outside (Point.some_ne_zero on)
  have away := Q.avoids_of_outside outside 1
  rw [one_zsmul, FinitePoint.eval_vertical_some] at away
  have distinct : x ≠ Q.x := (sub_ne_zero.mp away).symm
  have apart : x - Q.x ≠ 0 := sub_ne_zero.mpr distinct
  have first : Q.net (.some x y on) (-1) = x - Q.x := by
    rw [FinitePoint.net_neg_one, FinitePoint.distance, zero_zsmul, zero_add]
    rfl
  have second : Q.net (.some x y on) (-2) = (x + x + Q.x) * (x - Q.x) ^ 2 - (y + Q.y) ^ 2 := by
    have below := neighbours (-1)
    rw [neg_add_cancel, FinitePoint.net_zero, one_mul, first, FinitePoint.distance, neg_zsmul,
      one_zsmul, negated, FinitePoint.point, abscissa_add on' Q.on distinct, abscissa_some] at below
    refine below.trans ?_
    field_simp
    ring
  have third : Q.net (.some x y on) 2 = x + x + Q.x - ((y - Q.y) * (x - Q.x)⁻¹) ^ 2 := by
    have above := neighbours 1
    rw [one_add_one_eq_two, sub_self, FinitePoint.net_zero, FinitePoint.net_one, mul_one, one_pow,
      one_mul, FinitePoint.distance, one_zsmul, FinitePoint.point, abscissa_add on Q.on distinct,
      abscissa_some] at above
    rw [above, div_eq_mul_inv]
    ring
  have divisor := terms (-2)
  rw [second] at divisor
  have factor : (eEllnetValues x y Q.x Q.y).1 = (x - Q.x)⁻¹ := zpInvert_eq apart
  have correction : (eEllnetValues x y Q.x Q.y).2.1 =
      ((x + x + Q.x) * (x - Q.x) ^ 2 - (y + Q.y) ^ 2)⁻¹ := by
    rw [← zpInvert_eq divisor]
    simp only [eEllnetValues, FieldMethods.double_eq, FieldMethods.square_eq, ← sq]
  refine ⟨?_, ?_, ?_⟩
  · rw [factor, first, inv_mul_cancel₀ apart]
  · rw [correction, second, inv_mul_cancel₀ divisor]
  · constructor
    · rw [sub_self, FinitePoint.net_zero]
      rfl
    · rw [FinitePoint.net_one]
      rfl
    · rw [one_add_one_eq_two, third, ← factor]
      simp only [eEllnetValues, FieldMethods.double_eq, FieldMethods.square_eq, ← sq]

variable {N : ℕ} (finite : ∀ j, 0 < j → j ≤ N → j • (.some x y on : (short a b).Point) ≠ 0)
  (nonzero : 2 * y ≠ 0) {A B : F} (inverse : A * Q.net (.some x y on) (-1) = 1)
  (correction : B * Q.net (.some x y on) (-2) = 1)

include finite nonzero

omit [FpMethods F] in
/-- The combination that a step forms, at any spelling of its indices. -/
private theorem term_at {k : ℤ} {d : EllnetTriple F} (net : d.NetAt Q (.some x y on) k) (n : ℕ)
    (bounded : n + 1 ≤ N) {g h i s t : ℤ} (lower : g = n - 1) (middle : h = n) (upper : i = n + 1)
    (sum : s = k + n) (difference : t = k - n) :
    d.dm1 * d.d1 * divisionValue a b x y h ^ 2 -
        d.d0 ^ 2 * (divisionValue a b x y g * divisionValue a b x y i) =
      Q.net (.some x y on) s * Q.net (.some x y on) t := by
  subst lower middle upper sum difference
  rw [net.below, net.current, net.above]
  exact FinitePoint.net_combination outside finite nonzero k n bounded

include inverse correction

/-- One bit of the order moves the terms beside the block along with it. -/
theorem eEllnetTurnValues_net {k : ℕ} (positive : 0 < k) (bounded : k + 3 ≤ N) {c : EllnetBlock F}
    {d : EllnetTriple F} (block : c.Holds a b x y k) (net : d.NetAt Q (.some x y on) k)
    (r m : ℕ) :
    (eEllnetTurnValues r A B m (ellnetTerms c).toEllnetPpSt d).NetAt Q (.some x y on)
      (2 * k + (r.testBit m).toNat : ℕ) := by
  have term := term_at outside finite nonzero net
  cases bit : r.testBit m with
  | true =>
    have taken : mpzTstbit r m = true := bit
    constructor <;> simp only [eEllnetTurnValues, taken, if_true, eEllnetDoubleAddValues,
      ellnetTerms, FieldMethods.square_eq, ← sq, block.cm1, block.c0, block.c1, block.c2, block.c3,
      Bool.toNat_true]
    · rw [term k (by omega) rfl rfl rfl rfl (sub_self _).symm, FinitePoint.net_zero, mul_one]
      congr 1
      omega
    · rw [term (k + 1) (t := -1) (by omega) (by omega) (by omega) (by omega) rfl (by omega),
        mul_assoc, mul_comm _ A, inverse, mul_one]
      congr 1
      omega
    · rw [term (k + 2) (t := -2) (by omega) (by omega) (by omega) (by omega) rfl (by omega),
        mul_assoc, mul_comm _ B, correction, mul_one]
      congr 1
      omega
  | false =>
    have skipped : mpzTstbit r m = false := bit
    constructor <;> simp only [eEllnetTurnValues, skipped, Bool.false_eq_true, if_false,
      eEllnetDoubleValues, ellnetTerms, FieldMethods.square_eq, ← sq, block.cm2, block.cm1, block.c0,
      block.c1, block.c2, Bool.toNat_false]
    · rw [term (k - 1) (t := 1) (by omega) (by omega) (by omega) (by omega) rfl (by omega),
        FinitePoint.net_one, mul_one]
      congr 1
      omega
    · rw [term k (by omega) rfl rfl rfl rfl (sub_self _).symm, FinitePoint.net_zero, mul_one]
      congr 1
      omega
    · rw [term (k + 1) (t := -1) (by omega) (by omega) (by omega) (by omega) rfl (by omega),
        mul_assoc, mul_comm _ A, inverse, mul_one]
      congr 1
      omega

end Loop

section Run

variable {F : Type*} [Field F] [DecidableEq F] [FpMethods F] {a b x y : F}
  {on : (short a b).Nonsingular x y} {Q : FinitePoint a b}
  (outside : ∀ k : ℤ, k • (.some x y on : (short a b).Point) ≠ Q.point) {r : ℕ} (odd : Odd r)
  (large : 7 ≤ r) (order : addOrderOf (.some x y on : (short a b).Point) = r)
  (nonzero : 2 * y ≠ 0)

include outside odd large order nonzero

/-- The loop reaches the block and the terms of the net at the order. -/
theorem ePairingEllnetLoop_net {A B C : F} (inverse : A * Q.net (.some x y on) (-1) = 1)
    (correction : B * Q.net (.some x y on) (-2) = 1) (inverseC : C * (2 * y) = 1) (m : ℕ)
    (inside : m < r.log2) {c : EllnetBlock F} {d : EllnetTriple F}
    (block : c.Holds a b x y (r >>> (m + 1) : ℕ))
    (net : d.NetAt Q (.some x y on) (r >>> (m + 1) : ℕ)) :
    (ePairingEllnetLoop r C A B m c d).1.Holds a b x y r ∧
      (ePairingEllnetLoop r C A B m c d).2.NetAt Q (.some x y on) r := by
  have finite (j : ℕ) (positive : 0 < j) (below : j ≤ r - 1) :
      j • (.some x y on : (short a b).Point) ≠ 0 :=
    nsmul_ne_zero order (Nat.not_dvd_of_pos_of_lt positive (by omega))
  induction m generalizing c d with
  | zero =>
    obtain ⟨positive, half⟩ := shiftRight_succ_bounds odd inside
    have step := eEllnetTurnValues_net outside finite nonzero inverse correction positive (by omega)
      block net r 0
    rw [← shiftRight_eq_append] at step
    exact ⟨ellnetTurn_shiftRight inverseC block, step⟩
  | succ m ih =>
    obtain ⟨positive, half⟩ := shiftRight_succ_bounds odd inside
    have step := eEllnetTurnValues_net outside finite nonzero inverse correction positive (by omega)
      block net r (m + 1)
    rw [← shiftRight_eq_append] at step
    exact ih (by omega) (ellnetTurn_shiftRight inverseC block) step

/-- The value before the final powering has the symbol of the lines along the order. -/
theorem ePairingEllnetValue_symbol {M : Type*} [CommGroup M] (symbol : ResidueSymbol F M r)
    (p : EPairingData F) (coefficientA : p.a = a) (coefficientB : p.b = b) :
    ePairingEllnetValue p r ⟨false, x, y⟩ ⟨false, Q.x, Q.y⟩ ≠ 0 ∧
      symbol.of (ePairingEllnetValue p r ⟨false, x, y⟩ ⟨false, Q.x, Q.y⟩) =
        (Q.cocycle symbol (Q.avoids_of_outside outside)).power 1 r := by
  subst coefficientA coefficientB
  obtain ⟨inverse, correction, start⟩ := eEllnetValues_net outside
  obtain ⟨block, inverseC⟩ := ellnetBlockAb_holds p.a p.b x nonzero
  have positive : 0 < r.log2 := log2_pos_of_two_le (by omega)
  have top : r >>> (r.log2 - 1 + 1) = 1 := by
    rw [Nat.sub_add_cancel positive]
    exact shiftRight_log2 (by omega)
  obtain ⟨blockR, netR⟩ := ePairingEllnetLoop_net outside odd large order nonzero inverse correction
    inverseC (r.log2 - 1) (by omega) (by rw [top]; exact block) (by rw [top]; exact start)
  obtain ⟨i, rfl⟩ : ∃ i, r = 2 * i + 3 := by
    obtain ⟨i, rfl⟩ := odd
    exact ⟨i - 1, by omega⟩
  have finite (j : ℕ) (positive : 0 < j) (below : j ≤ 2 * i + 2) :
      j • (.some x y on : (short p.a p.b).Point) ≠ 0 :=
    nsmul_ne_zero order (Nat.not_dvd_of_pos_of_lt positive (by omega))
  have whole := addOrderOf_nsmul_self order
  have division := FinitePoint.divisionValue_beyond_ne_zero finite whole (by omega) nonzero
  have above := netR.above
  have divisor := blockR.c1
  rw [show ((2 * i + 3 : ℕ) : ℤ) + 1 = (2 * i + 4 : ℕ) by omega] at above divisor
  have value : ePairingEllnetValue p (2 * i + 3) ⟨false, x, y⟩ ⟨false, Q.x, Q.y⟩ =
      Q.net (.some x y on) (2 * i + 4 : ℕ) / divisionValue p.a p.b x y (2 * i + 4 : ℕ) := by
    rw [div_eq_mul_inv, ← zpInvert_eq division, ← above, ← divisor]
    rfl
  rw [value]
  refine ⟨div_ne_zero (Q.net_ne_zero outside (Point.some_ne_zero on) _) division, ?_⟩
  exact FinitePoint.of_net_beyond outside finite whole (by omega) nonzero symbol

end Run

end Pbc.Ecc
