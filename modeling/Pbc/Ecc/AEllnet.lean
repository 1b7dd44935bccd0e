import Pbc.Ecc.AMiller
import Pbc.Ecc.ATateexp
import Pbc.Ecc.ATable

/-!
# Elliptic net pairings of type A

The loop keeps eight neighbouring terms of a net along the first point and three terms
beside them that involve the second one. Preprocessing runs the eight terms alone and
stores what the three need of them at every step; it leaves its loop before the last
update, which no step reads.
-/

open Pbc.Arith Pbc.Gmp

namespace Pbc.Ecc

/-- The terms `c_{k-3}, ..., c_{k+4}`. -/
structure EllnetBlock (F : Type*) where
  cm3 : F
  cm2 : F
  cm1 : F
  c0 : F
  c1 : F
  c2 : F
  c3 : F
  c4 : F

/-- `ellnet_pp_st_s`: the squares and products of a block that the second point meets. -/
structure EllnetPpSt (F : Type*) where
  sm1 : F
  s0 : F
  s1 : F
  s2 : F
  tm1 : F
  t0 : F
  t1 : F
  t2 : F

/-- All squares and products of a block. -/
structure EllnetTerms (F : Type*) extends EllnetPpSt F where
  sm2 : F
  s3 : F
  tm2 : F
  t3 : F

/-- The terms `d_{k-1}, d_k, d_{k+1}`. -/
@[ext]
structure EllnetValues (F : Type*) [Field F] where
  dm1 : FiData F
  d0 : FiData F
  d1 : FiData F

section Steps

variable {F : Type*} [Field F] [FpMethods F]

/-- The block at `k = 1`, and the inverse of `c_2`. -/
def ellnetBlock (x y : F) : EllnetBlock F × F :=
  let c1 := FieldMethods.double y
  let c0 := 1
  let cm3 := -c1
  let cm2 := -c0
  let cm1 := FieldMethods.square x
  let C := FieldMethods.square cm1
  let c2 := C - cm1
  let c3 := FieldMethods.double c2
  let c3 := FieldMethods.double c3
  let c3 := c3 + c2
  let c2 := C * cm1
  let c3 := c3 + c2
  let c3 := c3 + cm2
  let c3 := c3 * c1
  let c3 := FieldMethods.double c3
  let cm1 := FieldMethods.double cm1
  let cm1 := cm1 + C
  let C := FieldMethods.double cm1
  let C := C + cm1
  let c2 := C + cm2
  let C := FieldMethods.square c1
  let c4 := C * c1
  let c4 := c4 * c3
  let C := FieldMethods.square c2
  let C := C * c2
  let c4 := c4 - C
  let cm1 := 0
  let C := zpInvert c1
  (⟨cm3, cm2, cm1, c0, c1, c2, c3, c4⟩, C)

/-- The factors `A` and `B`, and the terms at `k = 1` beside the block. -/
def ellnetValues (x y x2 y2 : F) : F × FiData F × EllnetValues F :=
  let A := x + x2
  let C := FieldMethods.double x
  let C := C - x2
  let cm1 := FieldMethods.square A
  let cm1 := C * cm1
  let d1 : FiData F := ⟨y, y2⟩
  let d1 := fiSquare d1
  let d1 : FiData F := ⟨d1.re - cm1, d1.im⟩
  let B := -d1
  let B := fiInvert B
  let A := zpInvert A
  let d1 : FiData F := ⟨y * A, d1.im⟩
  let d1 : FiData F := ⟨-d1.re, d1.im⟩
  let d1 : FiData F := ⟨d1.re, y2 * A⟩
  let d1 := fiSquare d1
  let d1 : FiData F := ⟨C - d1.re, d1.im⟩
  let d1 : FiData F := ⟨d1.re, -d1.im⟩
  (A, B, ⟨1, 1, d1⟩)

/-- The squares and products of a block. -/
def ellnetTerms (c : EllnetBlock F) : EllnetTerms F where
  sm2 := FieldMethods.square c.cm2
  sm1 := FieldMethods.square c.cm1
  s0 := FieldMethods.square c.c0
  s1 := FieldMethods.square c.c1
  s2 := FieldMethods.square c.c2
  s3 := FieldMethods.square c.c3
  tm2 := c.cm3 * c.cm1
  tm1 := c.cm2 * c.c0
  t0 := c.cm1 * c.c1
  t1 := c.c0 * c.c2
  t2 := c.c1 * c.c3
  t3 := c.c2 * c.c4

omit [FpMethods F] in
/-- The branch "double-and-add" on the block, which moves to `2 k + 1`. -/
def ellnetDoubleAdd (C : F) (w : EllnetTerms F) : EllnetBlock F :=
  let e0 := w.t0 * w.sm2
  let e1 := w.tm2 * w.s0
  let cm3 := e0 - e1
  let cm3 := cm3 * C
  let e0 := w.t0 * w.sm1
  let e1 := w.tm1 * w.s0
  let cm2 := e0 - e1
  let e0 := w.t1 * w.sm1
  let e1 := w.tm1 * w.s1
  let cm1 := e0 - e1
  let cm1 := cm1 * C
  let e0 := w.t1 * w.s0
  let e1 := w.t0 * w.s1
  let c0 := e0 - e1
  let e0 := w.t2 * w.s0
  let e1 := w.t0 * w.s2
  let c1 := e0 - e1
  let c1 := c1 * C
  let e0 := w.t2 * w.s1
  let e1 := w.t1 * w.s2
  let c2 := e0 - e1
  let e0 := w.t3 * w.s1
  let e1 := w.t1 * w.s3
  let c3 := e0 - e1
  let c3 := c3 * C
  let e0 := w.t3 * w.s2
  let e1 := w.t2 * w.s3
  let c4 := e0 - e1
  ⟨cm3, cm2, cm1, c0, c1, c2, c3, c4⟩

omit [FpMethods F] in
/-- The branch "double" on the block, which moves to `2 k`. -/
def ellnetDouble (C : F) (w : EllnetTerms F) : EllnetBlock F :=
  let e0 := w.tm1 * w.sm2
  let e1 := w.tm2 * w.sm1
  let cm3 := e0 - e1
  let e0 := w.t0 * w.sm2
  let e1 := w.tm2 * w.s0
  let cm2 := e0 - e1
  let cm2 := cm2 * C
  let e0 := w.t0 * w.sm1
  let e1 := w.tm1 * w.s0
  let cm1 := e0 - e1
  let e0 := w.t1 * w.sm1
  let e1 := w.tm1 * w.s1
  let c0 := e0 - e1
  let c0 := c0 * C
  let e0 := w.t1 * w.s0
  let e1 := w.t0 * w.s1
  let c1 := e0 - e1
  let e0 := w.t2 * w.s0
  let e1 := w.t0 * w.s2
  let c2 := e0 - e1
  let c2 := c2 * C
  let e0 := w.t2 * w.s1
  let e1 := w.t1 * w.s2
  let c3 := e0 - e1
  let e0 := w.t3 * w.s1
  let e1 := w.t1 * w.s3
  let c4 := e0 - e1
  let c4 := c4 * C
  ⟨cm3, cm2, cm1, c0, c1, c2, c3, c4⟩

omit [FpMethods F] in
/-- The branch "double-and-add" on the terms beside the block. -/
def ellnetDoubleAddValues (A : F) (B : FiData F) (w : EllnetPpSt F) (d : EllnetValues F) :
    EllnetValues F :=
  let u := fiSquare d.d0
  let v := fiMul d.dm1 d.d1
  let out : FiData F := ⟨u.re * w.t0, u.im * w.t0⟩
  let dm1 : FiData F := ⟨v.re * w.s0, v.im * w.s0⟩
  let dm1 := dm1 - out
  let out : FiData F := ⟨u.re * w.t1, u.im * w.t1⟩
  let d0 : FiData F := ⟨v.re * w.s1, v.im * w.s1⟩
  let d0 := d0 - out
  let d0 : FiData F := ⟨d0.re * A, d0.im * A⟩
  let out : FiData F := ⟨u.re * w.t2, u.im * w.t2⟩
  let d1 : FiData F := ⟨v.re * w.s2, v.im * w.s2⟩
  let d1 := d1 - out
  let d1 := fiMul d1 B
  ⟨dm1, d0, d1⟩

omit [FpMethods F] in
/-- The branch "double" on the terms beside the block. -/
def ellnetDoubleValues (A : F) (w : EllnetPpSt F) (d : EllnetValues F) : EllnetValues F :=
  let u := fiSquare d.d0
  let v := fiMul d.dm1 d.d1
  let out : FiData F := ⟨u.re * w.tm1, u.im * w.tm1⟩
  let dm1 : FiData F := ⟨v.re * w.sm1, v.im * w.sm1⟩
  let dm1 := dm1 - out
  let out : FiData F := ⟨u.re * w.t0, u.im * w.t0⟩
  let d0 : FiData F := ⟨v.re * w.s0, v.im * w.s0⟩
  let d0 := d0 - out
  let out : FiData F := ⟨u.re * w.t1, u.im * w.t1⟩
  let d1 : FiData F := ⟨v.re * w.s1, v.im * w.s1⟩
  let d1 := d1 - out
  let d1 : FiData F := ⟨d1.re * A, d1.im * A⟩
  ⟨dm1, d0, d1⟩

/-- The update of the block by one bit of the order. -/
def ellnetTurn (r : ℕ) (C : F) (m : ℕ) (w : EllnetTerms F) : EllnetBlock F :=
  if mpzTstbit r m then ellnetDoubleAdd C w else ellnetDouble C w

/-- The update of the terms beside it. -/
def ellnetTurnValues (r : ℕ) (A : F) (B : FiData F) (m : ℕ) (w : EllnetPpSt F)
    (d : EllnetValues F) : EllnetValues F :=
  if mpzTstbit r m then ellnetDoubleAddValues A B w d else ellnetDoubleValues A w d

/-- The loop of `a_pairing_ellnet` from bit `m` down. -/
def aPairingEllnetLoop (r : ℕ) (A C : F) (B : FiData F) :
    ℕ → EllnetBlock F → EllnetValues F → EllnetBlock F × EllnetValues F
  | 0, c, d =>
      let w := ellnetTerms c
      (ellnetTurn r C 0 w, ellnetTurnValues r A B 0 w.toEllnetPpSt d)
  | m + 1, c, d =>
      let w := ellnetTerms c
      aPairingEllnetLoop r A C B m (ellnetTurn r C (m + 1) w)
        (ellnetTurnValues r A B (m + 1) w.toEllnetPpSt d)

/-- `a_pairing_ellnet`. -/
def aPairingEllnet (p : APairingData) (in1 in2 : PointS F) : FiData F :=
  let (c, C) := ellnetBlock in1.x in1.y
  let (A, B, d) := ellnetValues in1.x in1.y in2.x in2.y
  let m := mpzSizeinbase2 p.r - 2
  let (_, d) := aPairingEllnetLoop p.r A C B m c d
  aTateexp d.d1 p.phikonr

/-- `ellnet_pp_s`: the coordinates of the first point and a block of `allocated` steps, of
which the first ones were written. -/
structure EllnetPp (F : Type*) where
  x : F
  y : F
  allocated : ℕ
  seq : List (EllnetPpSt F)

omit [Field F] [FpMethods F] in
/-- Reading a step of the block that was written. -/
def EllnetPp.read (pp : EllnetPp F) (k : ℕ) : Option (EllnetPpSt F) :=
  if k < pp.allocated then pp.seq[k]? else none

/-- The loop of `a_pairing_ellnet_pp_init` from bit `m` down: the steps written from the
current index on are appended. -/
def aPairingEllnetPpInitLoop (r : ℕ) (C : F) :
    ℕ → EllnetBlock F → List (EllnetPpSt F) → List (EllnetPpSt F)
  | 0, c, seq => seq ++ [(ellnetTerms c).toEllnetPpSt]
  | m + 1, c, seq =>
      let w := ellnetTerms c
      aPairingEllnetPpInitLoop r C m (ellnetTurn r C (m + 1) w) (seq ++ [w.toEllnetPpSt])

/-- `a_pairing_ellnet_pp_init`. -/
def aPairingEllnetPpInit (p : APairingData) (in1 : PointS F) : EllnetPp F :=
  let rbits := mpzSizeinbase2 p.r
  let (c, C) := ellnetBlock in1.x in1.y
  let seq := aPairingEllnetPpInitLoop p.r C (rbits - 2) c []
  ⟨in1.x, in1.y, rbits, seq⟩

/-- The number of steps that `a_pairing_ellnet_pp_clear` clears. -/
def aPairingEllnetPpClear (p : APairingData) : ℕ := mpzSizeinbase2 p.r

/-- The loop of `a_pairing_ellnet_pp_apply` from bit `m` and index `k` on. -/
def aPairingEllnetPpApplyLoop (seq : ℕ → Option (EllnetPpSt F)) (r : ℕ) (A : F) (B : FiData F) :
    ℕ → ℕ → EllnetValues F → Option (ℕ × EllnetValues F)
  | 0, k, d => do
      let w ← seq k
      return (k + 1, ellnetTurnValues r A B 0 w d)
  | m + 1, k, d => do
      let w ← seq k
      aPairingEllnetPpApplyLoop seq r A B m (k + 1) (ellnetTurnValues r A B (m + 1) w d)

/-- `a_pairing_ellnet_pp_apply`, with the index after its last step. -/
def aPairingEllnetPpApply (p : APairingData) (pp : EllnetPp F) (in2 : PointS F) :
    Option (ℕ × FiData F) := do
  let (A, B, d) := ellnetValues pp.x pp.y in2.x in2.y
  let m := mpzSizeinbase2 p.r - 2
  let (k, d) ← aPairingEllnetPpApplyLoop pp.read p.r A B m 0 d
  return (k, aTateexp d.d1 p.phikonr)

end Steps

section LockStep

variable {F : Type*} [Field F] [FpMethods F]

/-- From one block the steps are stored, and the loop and the replay of what was stored run
in lock step. The last update of the block, which is not made, is read by no step. -/
theorem ellnetLockStep (r : ℕ) (C : F) (m : ℕ) (c : EllnetBlock F) (seq : List (EllnetPpSt F)) :
    ∃ rest, aPairingEllnetPpInitLoop r C m c seq = seq ++ rest ∧ rest.length = m + 1 ∧
      ∀ A B d (read : ℕ → Option (EllnetPpSt F)) (start : ℕ),
        (∀ i, i < rest.length → read (start + i) = rest[i]?) →
          aPairingEllnetPpApplyLoop read r A B m start d =
            some (start + (m + 1), (aPairingEllnetLoop r A C B m c d).2) := by
  induction m generalizing c seq with
  | zero =>
    refine ⟨[(ellnetTerms c).toEllnetPpSt], rfl, rfl, fun A B d read start stored => ?_⟩
    have only := stored 0 (by simp)
    rw [add_zero] at only
    rw [aPairingEllnetPpApplyLoop, only]
    rfl
  | succ m ih =>
    obtain ⟨rest, written, size, follows⟩ :=
      ih (ellnetTurn r C (m + 1) (ellnetTerms c)) (seq ++ [(ellnetTerms c).toEllnetPpSt])
    refine ⟨(ellnetTerms c).toEllnetPpSt :: rest, ?_, by rw [List.length_cons, size], ?_⟩
    · exact written.trans (by rw [List.append_assoc]; rfl)
    · intro A B d read start stored
      have first := stored 0 (by simp)
      rw [add_zero] at first
      have later := follows A B
        (ellnetTurnValues r A B (m + 1) (ellnetTerms c).toEllnetPpSt d) read (start + 1)
        fun i inside => by
          rw [add_assoc, add_comm 1]
          exact stored (i + 1) (by simpa using inside)
      rw [aPairingEllnetPpApplyLoop, first, add_comm (m + 1) 1, ← add_assoc]
      exact later

/-- The replay of the stored steps returns what the direct run does; every step that it
reads was written, one entry of the block stays unused, and all entries are cleared. -/
theorem aPairingEllnetPp_exact (p : APairingData) (three : 3 ≤ p.r) (in1 in2 : PointS F) :
    ∃ k, aPairingEllnetPpApply p (aPairingEllnetPpInit p in1) in2 =
        some (k, aPairingEllnet p in1 in2) ∧
      k = (aPairingEllnetPpInit p in1).seq.length ∧
      k < (aPairingEllnetPpInit p in1).allocated ∧
      (aPairingEllnetPpInit p in1).allocated = aPairingEllnetPpClear p := by
  obtain ⟨rest, written, size, follows⟩ := ellnetLockStep p.r (ellnetBlock in1.x in1.y).2
    (mpzSizeinbase2 p.r - 2) (ellnetBlock in1.x in1.y).1 []
  rw [List.nil_append] at written
  have bits : 2 ≤ mpzSizeinbase2 p.r := by
    have := (Nat.le_log2 (n := p.r) (k := 1) (by omega)).mpr (by omega)
    rw [mpzSizeinbase2]
    omega
  have init : aPairingEllnetPpInit p in1 = ⟨in1.x, in1.y, mpzSizeinbase2 p.r, rest⟩ := by
    rw [← written]
    rfl
  have stored (i : ℕ) (inside : i < rest.length) :
      (aPairingEllnetPpInit p in1).read (0 + i) = rest[i]? := by
    rw [init, zero_add]
    exact if_pos (show i < mpzSizeinbase2 p.r by omega)
  have replay := follows (ellnetValues in1.x in1.y in2.x in2.y).1
    (ellnetValues in1.x in1.y in2.x in2.y).2.1 (ellnetValues in1.x in1.y in2.x in2.y).2.2 _ 0 stored
  refine ⟨0 + (mpzSizeinbase2 p.r - 2 + 1), ?_, ?_, ?_, ?_⟩
  · simp only [aPairingEllnetPpApply, init] at replay ⊢
    rw [replay]
    rfl
  · rw [init, size, zero_add]
  · rw [init]
    show 0 + (mpzSizeinbase2 p.r - 2 + 1) < mpzSizeinbase2 p.r
    omega
  · rw [init]
    rfl

/-- The replay on two points of order seven. -/
theorem aPairingEllnetPp_exact_small :
    ∃ k, aPairingEllnetPpApply (pairingInitAParam smallA)
        (aPairingEllnetPpInit (pairingInitAParam smallA) (⟨false, 29, 4⟩ : PointS (ZMod 83)))
          ⟨false, 49, 2⟩ =
        some (k, aPairingEllnet (pairingInitAParam smallA) ⟨false, 29, 4⟩ ⟨false, 49, 2⟩) ∧
      k = (aPairingEllnetPpInit (pairingInitAParam smallA)
        (⟨false, 29, 4⟩ : PointS (ZMod 83))).seq.length ∧
      k < (aPairingEllnetPpInit (pairingInitAParam smallA)
        (⟨false, 29, 4⟩ : PointS (ZMod 83))).allocated ∧
      (aPairingEllnetPpInit (pairingInitAParam smallA)
        (⟨false, 29, 4⟩ : PointS (ZMod 83))).allocated =
          aPairingEllnetPpClear (pairingInitAParam smallA) :=
  aPairingEllnetPp_exact (pairingInitAParam smallA) (by decide) ⟨false, 29, 4⟩ ⟨false, 49, 2⟩

end LockStep

end Pbc.Ecc
