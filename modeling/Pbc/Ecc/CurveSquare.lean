import Mathlib.Tactic.NormNum.Prime
import Pbc.Algebra.CyclicDoubles
import Pbc.Ecc.Curve

/-!
# The square test of a curve group

In a group of odd order every point is a double. For an even order `even_curve_is_sqr`
takes a multiple and tests it for `O`; the multiple is one less than half the order.
-/

open Pbc.Arith Pbc.Algebra Pbc.Elliptic WeierstrassCurve.Affine

namespace Pbc.Ecc

section Operations

variable {K : Type*} [CommRing K] [FieldMethods K] [DecidableEq K] (cca : K) (order : ℕ)

/-- `curve_is1`; also `curve_is0`. -/
def curveIs1 (x : PointS K) : Bool := x.infFlag

/-- `odd_curve_is_sqr`. -/
def oddCurveIsSqr (_e : PointS K) : Bool := true

/-- `even_curve_is_sqr`. -/
def evenCurveIsSqr (e : PointS K) : Except Exit Bool :=
  let z := order - 1
  let z := z / 2
  (curvePowMpz cca curveInit e z).map curveIs1

/-- The method `is_sqr` that `field_init_curve_ab` installs. -/
def curveIsSqr (e : PointS K) : Except Exit Bool :=
  if order % 2 = 1 then .ok (oddCurveIsSqr e) else evenCurveIsSqr cca order e

end Operations

section Values

variable {K : Type*} [Field K] [FieldMethods K] [InvertsNonzero K] [DecidableEq K]
  (two : (2 : K) ≠ 0) {a b : K} {P : (short a b).Point} {e : PointS K}

omit [FieldMethods K] [InvertsNonzero K] [DecidableEq K] in
theorem PointS.infFlag_iff (represents : e.Represents P) : e.infFlag = true ↔ P = 0 := by
  cases P with
  | zero => exact iff_of_true represents rfl
  | some x y on =>
    rw [PointS.represents_some_iff] at represents
    subst represents
    exact iff_of_false Bool.false_ne_true (Point.some_ne_zero on)

include two

/-- A computed power holds the multiple. -/
theorem curvePowMpz_represents (represents : e.Represents P) {n : ℕ} {c : PointS K}
    (run : curvePowMpz a curveInit e n = .ok c) : c.Represents (n • P) := by
  rw [curvePowMpz_ok two curveInit represents] at run
  cases run
  exact PointS.assign_represents _ _

/-- The test returns, and asks for `O` at one less than half the order. -/
theorem evenCurveIsSqr_ok (represents : e.Represents P) (order : ℕ) :
    ∃ result, evenCurveIsSqr a order e = .ok result ∧
      (result = true ↔ ((order - 1) / 2) • P = 0) := by
  refine ⟨_, ?_, PointS.infFlag_iff (PointS.assign_represents curveInit (((order - 1) / 2) • P))⟩
  rw [evenCurveIsSqr, curvePowMpz_ok two curveInit represents]
  rfl

/-- In a cyclic group of even order the test tells the doubles exactly at `O` and at the
points of odd index whose order is not two. -/
theorem curveIsSqr_exact_iff [Finite (short a b).Point] [IsAddCyclic (short a b).Point]
    {n : ℕ} (card : Nat.card (short a b).Point = n) (even : Even n) (represents : e.Represents P) :
    ∃ result, curveIsSqr a n e = .ok result ∧ ((result = true ↔ ∃ Q, P = Q + Q) ↔
      P = 0 ∨ (Odd (n / addOrderOf P) ∧ addOrderOf P ≠ 2)) := by
  subst card
  obtain ⟨result, run, zero⟩ := evenCurveIsSqr_ok two represents (Nat.card (short a b).Point)
  refine ⟨result, ?_, ?_⟩
  · rw [curveIsSqr, if_neg (by rw [Nat.even_iff.mp even]; decide), run]
  · rw [zero]
    exact pred_half_nsmul_iff even

end Values

section Small

private local instance primeFiveSquare : Fact (Nat.Prime 5) := ⟨by norm_num⟩

private theorem two_ne_zero_five : (2 : ZMod 5) ≠ 0 := by decide

/-- The point `(1, 2)` of `y² = x³ + x + 2` over `F_5`. -/
def smallGenerator : (short (1 : ZMod 5) 2).Point :=
  .some 1 2 (short_nonsingular (by decide) (by decide) (by decide))

private theorem smallGenerator_represents : PointS.Represents ⟨false, 1, 2⟩ smallGenerator := rfl

private theorem smallGenerator_generates (P : (short (1 : ZMod 5) 2).Point) :
    ∃ k : ℕ, k • smallGenerator = P := by
  have multiple {k : ℕ} {x y : ZMod 5} {on : (short (1 : ZMod 5) 2).Nonsingular x y}
      (run : curvePowMpz (1 : ZMod 5) curveInit ⟨false, 1, 2⟩ k = .ok ⟨false, x, y⟩) :
      k • smallGenerator = .some x y on :=
    (curvePowMpz_represents two_ne_zero_five smallGenerator_represents run).unique rfl
  cases P with
  | zero => exact ⟨0, zero_nsmul _⟩
  | some x y on =>
    have equation := short_nonsingular_eq on
    have points : ∀ x y : ZMod 5, y ^ 2 = x ^ 3 + 1 * x + 2 →
        (x = 1 ∧ y = 2) ∨ (x = 4 ∧ y = 0) ∨ (x = 1 ∧ y = 3) := by decide
    rcases points x y equation with ⟨rfl, rfl⟩ | ⟨rfl, rfl⟩ | ⟨rfl, rfl⟩
    · exact ⟨1, multiple (by decide)⟩
    · exact ⟨2, multiple (by decide)⟩
    · exact ⟨3, multiple (by decide)⟩

private theorem addOrderOf_smallGenerator : addOrderOf smallGenerator = 4 := by
  have whole : 2 ^ 2 • smallGenerator = 0 :=
    nsmul_eq_zero_of_curvePowMpz two_ne_zero_five smallGenerator_represents (by decide)
  have half : ¬2 ^ 1 • smallGenerator = 0 := by
    have double : PointS.Represents (⟨false, 4, 0⟩ : PointS (ZMod 5)) (2 ^ 1 • smallGenerator) :=
      curvePowMpz_represents two_ne_zero_five smallGenerator_represents (by decide)
    rw [← PointS.infFlag_iff double]
    exact Bool.false_ne_true
  exact addOrderOf_eq_prime_pow half whole

private theorem isAddCyclic_small : IsAddCyclic (short (1 : ZMod 5) 2).Point where
  exists_zsmul_surjective := ⟨smallGenerator, fun P => by
    obtain ⟨k, rfl⟩ := smallGenerator_generates P
    exact ⟨k, natCast_zsmul _ _⟩⟩

private theorem card_small : Nat.card (short (1 : ZMod 5) 2).Point = 4 := by
  rw [← addOrderOf_smallGenerator]
  refine (addOrderOf_eq_card_of_forall_mem_zmultiples fun P => ?_).symm
  obtain ⟨k, rfl⟩ := smallGenerator_generates P
  exact AddSubgroup.nsmul_mem_zmultiples smallGenerator k

/-- A generator is no double, and the test says so. -/
theorem curveIsSqr_exact_small : ∃ result, curveIsSqr (1 : ZMod 5) 4 ⟨false, 1, 2⟩ = .ok result ∧
    (result = true ↔ ∃ Q, smallGenerator = Q + Q) := by
  have : Finite (short (1 : ZMod 5) 2).Point :=
    Nat.finite_of_card_ne_zero (by rw [card_small]; decide)
  have := isAddCyclic_small
  obtain ⟨result, run, exact_iff⟩ := curveIsSqr_exact_iff two_ne_zero_five card_small (by decide)
    smallGenerator_represents
  refine ⟨result, run, exact_iff.mpr (Or.inr ?_)⟩
  rw [addOrderOf_smallGenerator]
  decide

/-- The double `(4, 0)` of the generator is not recognised. -/
theorem curveIsSqr_misses : IsAddCyclic (short (1 : ZMod 5) 2).Point ∧
    Nat.card (short (1 : ZMod 5) 2).Point = 4 ∧
    PointS.Represents ⟨false, 4, 0⟩ (smallGenerator + smallGenerator) ∧
    curveIsSqr (1 : ZMod 5) 4 ⟨false, 4, 0⟩ = .ok false := by
  refine ⟨isAddCyclic_small, card_small, ?_, by decide⟩
  rw [← two_nsmul]
  exact curvePowMpz_represents two_ne_zero_five smallGenerator_represents (by decide)

end Small

end Pbc.Ecc
