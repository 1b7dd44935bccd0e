import Mathlib.Tactic.NormNum.Prime
import Pbc.Ecc.AMiller
import Pbc.Ecc.ATateexp

/-!
# Agreement of the type A runs

The replay of the table runs in lock step with the affine loop, so it hands the
same value to the final powering. The Jacobian run hands over another value of the
same class up to scalars of `F_q`, which the powering removes.
-/

open Pbc.Arith Pbc.Gmp Pbc.Algebra Pbc.Elliptic

namespace Pbc.Ecc

section LockStep

variable {F : Type*} [Field F] [DecidableEq F] [FpMethods F]

/-- From one state the table is written, and the affine loop and the replay of what
was written run in lock step. -/
theorem aLockStep (n : ℕ) (V : PointS F) (coeff : List (PpCoeff F)) :
    ∃ V' rest, aPairingPpInitLoop n V coeff = .ok (V', coeff ++ rest) ∧ rest.length = n ∧
      ∀ Qx Qy f, ∃ f', aPairingAffineLoop Qx Qy n V f = .ok (V', f') ∧
        ∀ (read : ℕ → Option (PpCoeff F)) (start : ℕ),
          (∀ i, i < rest.length → read (start + i) = rest[i]?) →
            aPairingPpApplyLoop read Qx Qy n start f = some (start + n, f') := by
  induction n generalizing V coeff with
  | zero =>
    refine ⟨V, [], by rw [List.append_nil]; rfl, rfl, fun Qx Qy f => ⟨f, rfl, ?_⟩⟩
    intro read start _
    rfl
  | succ n ih =>
    obtain ⟨doubled, double⟩ := curveDouble_returns 1 V V
    obtain ⟨V', rest, written, size, follows⟩ := ih doubled (coeff ++ [computeAbcTangent V])
    refine ⟨V', computeAbcTangent V :: rest, ?_, by rw [List.length_cons, size], ?_⟩
    · rw [aPairingPpInitLoop, double]
      exact written.trans (by rw [List.append_assoc]; rfl)
    · intro Qx Qy f
      obtain ⟨f', direct, replay⟩ :=
        follows Qx Qy (fiMul (fiSquare f) (aMillerEvalfn (computeAbcTangent V) Qx Qy))
      refine ⟨f', ?_, ?_⟩
      · rw [aPairingAffineLoop, double]
        exact direct
      · intro read start stored
        have first := stored 0 (by simp)
        rw [add_zero] at first
        have later := replay read (start + 1) fun i inside => by
          rw [add_assoc, add_comm 1]
          exact stored (i + 1) (by simpa using inside)
        rw [aPairingPpApplyLoop, first, ← add_assoc, Nat.add_right_comm]
        exact later

/-- The preprocessed run stays inside its block and returns what the affine one
does. -/
theorem aPairingPp_eq_affine (p : APairingData) (ordered : p.exp1 ≤ p.exp2) (in1 in2 : PointS F) :
    ∃ table value, aPairingPpInit p in1 = .ok table ∧ table.InBounds ∧
      aPairingPpApply p table.read in2 = some value ∧ aPairingAffine p in1 in2 = .ok value := by
  obtain ⟨V₁, first, written₁, size₁, follows₁⟩ := aLockStep p.exp1 (curveSet curveInit in1) []
  obtain ⟨V₂, second, written₂, size₂, follows₂⟩ :=
    aLockStep (p.exp2 - p.exp1) V₁ ([] ++ first)
  obtain ⟨f₁, direct₁, replay₁⟩ := follows₁ in2.x in2.y 1
  obtain ⟨f₂, direct₂, replay₂⟩ := follows₂ in2.x in2.y f₁
  rw [List.nil_append] at written₁ written₂
  have init : ∃ last, aPairingPpInit p in1 = .ok ⟨p.exp2 + 1, first ++ second ++ [last]⟩ ∧
      last = computeAbcLine V₂
        (if p.sign1 < 0 then curveInvert curveInit V₁ else curveSet curveInit V₁) := by
    refine ⟨_, ?_, rfl⟩
    simp only [aPairingPpInit, written₁, bind, Except.bind, written₂]
    rfl
  obtain ⟨last, init, chord⟩ := init
  have count : (first ++ second ++ [last]).length = p.exp2 + 1 := by
    rw [List.length_append, List.length_append, size₁, size₂, List.length_singleton]
    omega
  have inside : PpTable.InBounds ⟨p.exp2 + 1, first ++ second ++ [last]⟩ := count.le
  have affine : aPairingAffine p in1 in2 = .ok (aTateexp (fiMul (fiMul f₂
      (if p.sign1 < 0 then fiInvert f₁ else f₁)) (aMillerEvalfn last in2.x in2.y)) p.phikonr) := by
    simp only [aPairingAffine, direct₁, bind, Except.bind, direct₂, chord]
    rfl
  refine ⟨_, _, init, inside, ?_, affine⟩
  · have low := replay₁ (PpTable.read ⟨p.exp2 + 1, first ++ second ++ [last]⟩) 0 fun i bounded => by
      have below : i < (first ++ second).length := by
        rw [List.length_append]
        omega
      rw [zero_add, inside.read_eq (by rw [count]; omega), List.getElem?_append_left below,
        List.getElem?_append_left bounded]
    have high := replay₂ (PpTable.read ⟨p.exp2 + 1, first ++ second ++ [last]⟩) (0 + p.exp1)
      fun i bounded => by
        have below : p.exp1 + i < (first ++ second).length := by
          rw [List.length_append, size₁]
          omega
        rw [zero_add, inside.read_eq (by rw [count]; omega), List.getElem?_append_left below,
          List.getElem?_append_right (by omega), size₁, Nat.add_sub_cancel_left]
    have top : PpTable.read ⟨p.exp2 + 1, first ++ second ++ [last]⟩ (0 + p.exp1 +
        (p.exp2 - p.exp1)) = some last := by
      have index : 0 + p.exp1 + (p.exp2 - p.exp1) = (first ++ second).length := by
        rw [List.length_append, size₁, size₂, zero_add]
      rw [inside.read_eq (by rw [count]; omega), index, List.getElem?_append_right le_rfl,
        Nat.sub_self]
      rfl
    simp only [aPairingPpApply, low, bind, Option.bind, high, top]
    rfl

end LockStep

section Runs

variable {F : Type*} [Field F] [DecidableEq F] [FpMethods F]
  [nonsquare : Fact (∀ r : F, r ^ 2 ≠ -1 + 0 * r)] (two : (2 : F) ≠ 0) {param : AParam}
  (valid : param.Valid) (ordered : param.exp1 < param.exp2)
  {P : (short (1 : F) 0).Point} (order : addOrderOf P = param.r)
  {in1 : PointS F} (represents : in1.Represents P) {x y : F}
  (on : (short (1 : F) 0).Nonsingular x y) (axis : y ≠ 0)

include two valid ordered order represents

/-- The value of the affine run before the final powering. -/
theorem aPairingAffine_ok : ∃ v, aPairingAffine (pairingInitAParam param) in1 ⟨false, x, y⟩ =
    .ok (aTateexp v param.h) ∧ (distort on axis).Accumulates P param.r v := by
  have proper : param.r ≠ 1 := by
    have := valid.large
    omega
  have start : (curveSet curveInit in1).Represents (2 ^ 0 • P) := by
    rw [pow_zero, one_nsmul, curveSet_eq _ represents]
    exact PointS.assign_represents _ _
  obtain ⟨V₁, f₁, first, represents₁, accumulates₁⟩ :=
    aPairingAffineLoop_ok two (distort on axis) valid.odd proper order param.exp1 0 start .one
  rw [zero_add] at represents₁ accumulates₁
  obtain ⟨V₂, f₂, second, represents₂, accumulates₂⟩ :=
    aPairingAffineLoop_ok two (distort on axis) valid.odd proper order (param.exp2 - param.exp1)
      param.exp1 represents₁ accumulates₁
  rw [Nat.add_sub_cancel' ordered.le] at represents₂ accumulates₂
  simp only [distort_x, distort_y, neg_neg] at first second
  have chord := accumulates_chord (distort on axis) (W := curveInit) valid ordered order
    accumulates₁ accumulates₂ represents₁ represents₂
  simp only [distort_x, distort_y, neg_neg] at chord
  refine ⟨_, ?_, chord⟩
  simp only [aPairingAffine, pairingInitAParam, first, bind, Except.bind, second]
  rfl

/-- The value of the Jacobian run before the final powering. -/
theorem aPairingProj_eq : ∃ v, aPairingProj (pairingInitAParam param) in1 ⟨false, x, y⟩ =
    aTateexp v param.h ∧ (distort on axis).Accumulates P param.r v := by
  have proper : param.r ≠ 1 := by
    have := valid.large
    omega
  have finite : P ≠ 0 := ne_zero_of_order order proper
  have start : ProjState.ProjectsPoint ⟨curveSet curveInit in1, 1, 1⟩ (2 ^ 0 • P) := by
    rw [pow_zero, one_nsmul, curveSet_eq _ represents]
    exact projectsPoint_one (PointS.assign_represents _ _) finite
  obtain ⟨s₁, f₁, first, projects₁, accumulates₁⟩ :=
    aPairingProjLoop_ok two (distort on axis) valid.odd proper order param.exp1 0 start .one
  rw [zero_add] at projects₁ accumulates₁
  obtain ⟨V₁, affine₁, represents₁⟩ := pointToAffine_represents projects₁
  have finite₁ : 2 ^ param.exp1 • P ≠ 0 :=
    nsmul_ne_zero order (not_dvd_two_pow valid.odd proper param.exp1)
  obtain ⟨s₂, f₂, second, projects₂, accumulates₂⟩ :=
    aPairingProjLoop_ok two (distort on axis) valid.odd proper order (param.exp2 - param.exp1)
      param.exp1 (projectsPoint_one represents₁ finite₁) accumulates₁
  rw [Nat.add_sub_cancel' ordered.le] at projects₂ accumulates₂
  obtain ⟨V₂, affine₂, represents₂⟩ := pointToAffine_represents projects₂
  simp only [distort_x, distort_y, neg_neg] at first second
  have chord := accumulates_chord (distort on axis) (W := curveInit) valid ordered order
    accumulates₁ accumulates₂ represents₁ represents₂
  simp only [distort_x, distort_y, neg_neg] at chord
  refine ⟨_, ?_, chord⟩
  simp only [aPairingProj, pairingInitAParam, first, affine₁, second, affine₂]

end Runs

section Agreement

variable {F : Type*} [Field F] [Fintype F] {param : AParam}

/-- Twice a fourth of `q + 1`. -/
theorem AParam.Valid.even (valid : param.Valid) : Even param.h := by
  have product := valid.cofactor
  have residue := valid.residue
  have even : Even (param.r * param.h) := by
    rw [product, Nat.even_iff]
    omega
  rcases Nat.even_mul.mp even with r | h
  · exact absurd r (Nat.not_even_iff_odd.mpr valid.odd)
  · exact h

/-- The final powering sends every nonzero scalar to one. -/
theorem scalar_pow_unitary (h : ℕ) (c : F) (nonzero : c ≠ 0) :
    c ^ ((Fintype.card F - 1) * h) = 1 := by
  rw [pow_mul, FiniteField.pow_card_sub_one_eq_one c nonzero, one_pow]

/-- The final powering is a function of the class of a value. -/
theorem aTateexp_eq_powHom [FpMethods F] [Fact (∀ r : F, r ^ 2 ≠ -1 + 0 * r)]
    (card : Fintype.card F = param.q) (valid : param.Valid) {v : FiData F} (nonzero : v ≠ 0) :
    aTateexp v param.h =
      ScalarClass.powHom _ (scalar_pow_unitary (F := F) param.h) (ScalarClass.of F v) := by
  rw [ScalarClass.powHom_of _ nonzero]
  exact aTateexp_eq (by rw [card]; exact valid.residue) valid.even nonzero

/-- Values of one class have the same final power. -/
theorem aTateexp_congr [DecidableEq F] [FpMethods F] [Fact (∀ r : F, r ^ 2 ≠ -1 + 0 * r)]
    (card : Fintype.card F = param.q) (valid : param.Valid) {P : (short (1 : F) 0).Point} {r : ℕ}
    {Q : TwistPoint (1 : F) 0 (-1)} {v w : FiData F} (left : Q.Accumulates P r v)
    (right : Q.Accumulates P r w) : aTateexp v param.h = aTateexp w param.h := by
  rw [aTateexp_eq_powHom card valid left.nonzero, aTateexp_eq_powHom card valid right.nonzero,
    left.value, right.value]

/-- The Jacobian, the affine and the preprocessed run return one element, and the
preprocessed one stays inside its block. -/
theorem aPairing_methods_agree [DecidableEq F] [FpMethods F] (card : Fintype.card F = param.q)
    (valid : param.Valid) (ordered : param.exp1 < param.exp2) {P : (short (1 : F) 0).Point}
    (order : addOrderOf P = param.r) {in1 : PointS F} (represents : in1.Represents P) {x y : F}
    (on : (short (1 : F) 0).Nonsingular x y) (axis : y ≠ 0) :
    ∃ table, aPairingPpInit (pairingInitAParam param) in1 = .ok table ∧ table.InBounds ∧
      aPairingAffine (pairingInitAParam param) in1 ⟨false, x, y⟩ =
        .ok (aPairingProj (pairingInitAParam param) in1 ⟨false, x, y⟩) ∧
      aPairingPpApply (pairingInitAParam param) table.read ⟨false, x, y⟩ =
        some (aPairingProj (pairingInitAParam param) in1 ⟨false, x, y⟩) := by
  have residue : Fintype.card F % 4 = 3 := by
    rw [card]
    exact valid.residue
  have nonsquare : Fact (∀ r : F, r ^ 2 ≠ -1 + 0 * r) := ⟨sq_ne_neg_one residue⟩
  have two := two_ne_zero_of_residue residue
  obtain ⟨v, affine, accumulates⟩ := aPairingAffine_ok two valid ordered order represents on axis
  obtain ⟨w, proj, accumulates'⟩ := aPairingProj_eq two valid ordered order represents on axis
  have same := aTateexp_congr card valid accumulates accumulates'
  obtain ⟨table, value, init, inside, replay, direct⟩ :=
    aPairingPp_eq_affine (pairingInitAParam param) ordered.le in1 ⟨false, x, y⟩
  obtain rfl := Except.ok.inj (direct.symm.trans affine)
  refine ⟨table, init, inside, ?_, ?_⟩
  · rw [affine, same, proj]
  · rw [replay, same, proj]

end Agreement

section Small

instance primeEightyThree : Fact (Nat.Prime 83) := ⟨by norm_num⟩

/-- A small parameter set: `7 = 4 + 2 + 1` and `7 * 12 = 83 + 1`. -/
def smallA : AParam where
  q := 83
  r := 7
  h := 12
  exp2 := 2
  exp1 := 1
  sign1 := 1
  sign0 := 1

theorem smallA_valid : smallA.Valid where
  residue := by decide
  prime := by decide
  form := by decide
  sign1 := by decide
  sign0 := by decide
  large := by decide
  cofactor := by decide

/-- A point of order 7. -/
def smallAPoint : (short (1 : ZMod 83) 0).Point :=
  .some 29 4 (short_nonsingular (by decide) (by decide) (by decide))

theorem smallAPoint_represents : PointS.Represents ⟨false, 29, 4⟩ smallAPoint := rfl

theorem addOrderOf_smallAPoint : addOrderOf smallAPoint = 7 := by
  exact addOrderOf_eq_of_curvePowMpz (by norm_num) (by decide) smallAPoint_represents rfl
    (by decide)

theorem smallAOther_nonsingular : (short (1 : ZMod 83) 0).Nonsingular 49 2 :=
  short_nonsingular (by decide) (by decide) (by decide)

/-- The three runs on two points of order 7. -/
theorem aPairing_methods_agree_small :
    ∃ table : PpTable (ZMod 83),
      aPairingPpInit (pairingInitAParam smallA) ⟨false, 29, 4⟩ = .ok table ∧ table.InBounds ∧
      aPairingAffine (pairingInitAParam smallA) (⟨false, 29, 4⟩ : PointS (ZMod 83))
          ⟨false, 49, 2⟩ =
        .ok (aPairingProj (pairingInitAParam smallA) ⟨false, 29, 4⟩ ⟨false, 49, 2⟩) ∧
      aPairingPpApply (pairingInitAParam smallA) table.read ⟨false, 49, 2⟩ =
        some (aPairingProj (pairingInitAParam smallA) ⟨false, 29, 4⟩ ⟨false, 49, 2⟩) :=
  aPairing_methods_agree (ZMod.card 83) smallA_valid (by decide) addOrderOf_smallAPoint
    smallAPoint_represents smallAOther_nonsingular (by decide)

end Small

end Pbc.Ecc
