import Pbc.Ecc.CurveMultiples

/-!
# Runs of curve operations

A program calls the routines of a curve one after the other, on objects that it has initialised. Each
call acts on the points that the objects hold as the group of the curve does, so every state reached
holds points, whatever coordinates lie under the objects that hold `O`.
-/

open Pbc.Arith Pbc.Elliptic

namespace Pbc.Ecc

/-- The calls; the first object is the destination. -/
inductive CurveOp (ι F : Type) where
  | init (e : ι)
  | set0 (e : ι)
  | set1 (e : ι)
  | set (c a : ι)
  | mul (c a b : ι)
  | double (c a : ι)
  | invert (c a : ι)
  | powMpz (x a : ι) (n : ℤ)
  | fromBytes (e : ι) (x y : F)

section Operations

variable {ι F : Type} [DecidableEq ι] [CommRing F] [FieldMethods F] [DecidableEq F] (a b : F)

/-- One call. The bytes that `curve_from_bytes` reads are given by the coordinates they encode, and
`set0` is `curve_set1`. -/
def CurveOp.run (s : CurveStore ι F) : CurveOp ι F → Except Exit (CurveStore ι F)
  | init e => .ok (Function.update s e curveInit)
  | set0 e => .ok (curveSet1At s e)
  | set1 e => .ok (curveSet1At s e)
  | set c i => .ok (curveSetAt s c i)
  | mul c i j => curveMulAt a s c i j
  | double c i => curveDoubleAt a s c i
  | invert c i => .ok (curveInvertAt s c i)
  | powMpz c i n => (curveMulMpz a (s c) (s i) n).map (Function.update s c)
  | fromBytes e x y => .ok (Function.update s e (curveFromBytes a b x y))

/-- One call after the other. -/
def runCurveOps (s : CurveStore ι F) : List (CurveOp ι F) → Except Exit (CurveStore ι F)
  | [] => .ok s
  | op :: ops => do
      let s ← op.run a b s
      runCurveOps s ops

end Operations

section Values

open Classical in
/-- What a call does to the points that the objects hold. -/
noncomputable def CurveOp.act {ι F : Type} [DecidableEq ι] [Field F] [DecidableEq F] {a b : F}
    (v : ι → (short a b).Point) : CurveOp ι F → ι → (short a b).Point
  | init e => Function.update v e 0
  | set0 e => Function.update v e 0
  | set1 e => Function.update v e 0
  | set c i => Function.update v c (v i)
  | mul c i j => Function.update v c (v i + v j)
  | double c i => Function.update v c (v i + v i)
  | invert c i => Function.update v c (-v i)
  | powMpz c i n => Function.update v c (exponentBits n • v i)
  | fromBytes e x y =>
      Function.update v e (if on : (short a b).Nonsingular x y then .some x y on else 0)

variable {ι F : Type} [DecidableEq ι] [Field F] [FieldMethods F] [InvertsNonzero F] [DecidableEq F]
  {a b : F} (two : (2 : F) ≠ 0) (smooth : 4 * a ^ 3 + 27 * b ^ 2 ≠ 0)

include two smooth

omit [InvertsNonzero F] in
open Classical in
/-- `curve_from_bytes` keeps the coordinates of a point and turns others into `O`. -/
theorem curveFromBytes_represents (x y : F) : (curveFromBytes a b x y).Represents
    (if on : (short a b).Nonsingular x y then .some x y on else 0) := by
  have test := curveIsValidPoint_iff two smooth ⟨false, x, y⟩
  by_cases on : (short a b).Nonsingular x y
  · have point : PointS.Represents ⟨false, x, y⟩ (.some x y on) := rfl
    rw [dif_pos on, curveFromBytes, if_pos (test.mpr ⟨_, point⟩)]
    exact point
  · rw [dif_neg on, curveFromBytes, if_neg]
    · rfl
    · intro valid
      obtain ⟨P, represents⟩ := test.mp valid
      cases P with
      | zero => exact Bool.false_ne_true represents
      | some x' y' on' =>
        rw [PointS.represents_some_iff, PointS.mk.injEq] at represents
        obtain ⟨-, rfl, rfl⟩ := represents
        exact on on'

/-- A call returns and acts as the group does. -/
theorem CurveOp.run_holds {s : CurveStore ι F} {v : ι → (short a b).Point} (holds : s.Holds v)
    (op : CurveOp ι F) : ∃ s', op.run a b s = .ok s' ∧ s'.Holds (op.act v) := by
  have assigned (c : ι) {p : PointS F} {P : (short a b).Point} (represents : p.Represents P) :
      CurveStore.Holds (Function.update s c p) (Function.update v c P) := by
    intro i
    by_cases same : i = c
    · subst same
      rwa [Function.update_self, Function.update_self]
    · rw [Function.update_of_ne same, Function.update_of_ne same]
      exact holds i
  cases op with
  | init e => exact ⟨_, rfl, assigned e curveInit_represents⟩
  | set0 e => exact ⟨_, rfl, holds.set1 e⟩
  | set1 e => exact ⟨_, rfl, holds.set1 e⟩
  | set c i => exact ⟨_, rfl, holds.set c i⟩
  | mul c i j => exact holds.mul two c i j
  | double c i => exact holds.double two c i
  | invert c i => exact ⟨_, rfl, holds.invert c i⟩
  | powMpz c i n =>
    refine ⟨Function.update s c ((s c).assign (exponentBits n • v i)), ?_, holds.assign c _⟩
    rw [CurveOp.run, curveMulMpz_ok two (s c) (holds i) n]
    rfl
  | fromBytes e x y => exact ⟨_, rfl, assigned e (curveFromBytes_represents two smooth x y)⟩

/-- Every run returns, and what it leaves in the objects is what the group leaves. -/
theorem runCurveOps_holds (ops : List (CurveOp ι F)) {s : CurveStore ι F}
    {v : ι → (short a b).Point} (holds : s.Holds v) :
    ∃ s', runCurveOps a b s ops = .ok s' ∧ s'.Holds (ops.foldl CurveOp.act v) := by
  induction ops generalizing s v with
  | nil => exact ⟨s, rfl, holds⟩
  | cons op ops ih =>
    obtain ⟨s₁, first, holds₁⟩ := op.run_holds two smooth holds
    obtain ⟨s₂, rest, holds₂⟩ := ih holds₁
    refine ⟨s₂, ?_, holds₂⟩
    rw [runCurveOps, first]
    exact rest

end Values

end Pbc.Ecc
