import Pbc.Ecc.AMiller
import Pbc.Ecc.DProj
import Pbc.Ecc.EParam

/-!
# The two Miller loops of type E

Both loops double the first point. Each line of the Jacobian one is scaled by a power of
its third coordinate, in the value at `Q + R` and in the value at `R` alike, so the two
fractions differ by one factor and their quotients agree.
-/

open Pbc.Arith Pbc.Elliptic

namespace Pbc.Ecc

section Fractions

variable {F : Type*} [Field F]

/-- Numerator and denominator are scaled by one factor. -/
def EFraction.Scales (f g : EFraction F) : Prop := ∃ c : F, c ≠ 0 ∧ f = ⟨c * g.v, c * g.vd⟩

theorem EFraction.Scales.refl (f : EFraction F) : f.Scales f :=
  ⟨1, one_ne_zero, by simp only [one_mul]⟩

variable {f g : EFraction F}

theorem EFraction.Scales.mul {f₁ g₁ : EFraction F} (scales : f.Scales g) (scales₁ : f₁.Scales g₁) :
    EFraction.Scales ⟨f.v * f₁.v, f.vd * f₁.vd⟩ ⟨g.v * g₁.v, g.vd * g₁.vd⟩ := by
  obtain ⟨c, nonzero, rfl⟩ := scales
  obtain ⟨c₁, nonzero₁, rfl⟩ := scales₁
  refine ⟨c * c₁, mul_ne_zero nonzero nonzero₁, ?_⟩
  congr 1
  · ring
  · ring

theorem EFraction.Scales.swap (scales : f.Scales g) :
    EFraction.Scales ⟨f.vd, f.v⟩ ⟨g.vd, g.v⟩ := by
  obtain ⟨c, nonzero, rfl⟩ := scales
  exact ⟨c, nonzero, rfl⟩

theorem eSquares_scales [FpMethods F] (scales : f.Scales g) : (eSquares f).Scales (eSquares g) :=
  scales.mul scales

/-- A line that is scaled scales both values. -/
theorem eMulLine_scales (QR R : PointS F) {s : F} (nonzero : s ≠ 0) (line : PpCoeff F)
    (scales : f.Scales g) :
    (eMulLine QR R ⟨s * line.a, s * line.b, s * line.c⟩ f).Scales (eMulLine QR R line g) := by
  have value (A : PointS F) :
      eEvalfn ⟨s * line.a, s * line.b, s * line.c⟩ A = s * eEvalfn line A := by
    simp only [eEvalfn]
    ring
  have factor : EFraction.Scales ⟨s * eEvalfn line QR, s * eEvalfn line R⟩
      ⟨eEvalfn line QR, eEvalfn line R⟩ := ⟨s, nonzero, rfl⟩
  have product := scales.mul factor
  rwa [← value, ← value] at product

/-- So does a vertical. -/
theorem eProjVerticalBelow_scales (QR R : PointS F) {z : F} (nonzero : z ≠ 0) (x : F)
    (scales : f.Scales g) :
    (eProjVerticalBelow QR R (z ^ 2) (x * z ^ 2) f).Scales (eVerticalBelow QR R x g) := by
  have factor : EFraction.Scales ⟨R.x * z ^ 2 - x * z ^ 2, QR.x * z ^ 2 - x * z ^ 2⟩
      ⟨R.x - x, QR.x - x⟩ := by
    refine ⟨z ^ 2, pow_ne_zero 2 nonzero, ?_⟩
    congr 1
    · ring
    · ring
  exact scales.mul factor

theorem eProjVertical_scales (QR R : PointS F) (x : F) (scales : f.Scales g) :
    (eProjVertical QR R 1 x f).Scales (eVertical QR R x g) := by
  have factor : EFraction.Scales ⟨QR.x * 1 - x, R.x * 1 - x⟩ ⟨QR.x - x, R.x - x⟩ := by
    simp only [mul_one]
    exact .refl _
  exact scales.mul factor

/-- From normalised points on the runs stay a factor apart. -/
theorem eMillerEnd_scales (QR R : PointS F) (line : PpCoeff F) (x Px : F) (sign0 : ℤ)
    (scales : f.Scales g) :
    EFraction.Scales
      (if sign0 > 0 then eProjVertical QR R 1 Px (eProjVerticalBelow QR R 1 x (eMulLine QR R line f))
        else eProjVerticalBelow QR R 1 x (eMulLine QR R line f))
      (if sign0 > 0 then eVertical QR R Px (eVerticalBelow QR R x (eMulLine QR R line g))
        else eVerticalBelow QR R x (eMulLine QR R line g)) := by
  have chord : (eMulLine QR R line f).Scales (eMulLine QR R line g) :=
    scales.mul (.refl ⟨eEvalfn line QR, eEvalfn line R⟩)
  have vertical := eProjVerticalBelow_scales QR R one_ne_zero x chord
  rw [one_pow, mul_one] at vertical
  split
  · exact eProjVertical_scales QR R Px vertical
  · exact vertical

/-- Fractions that differ by a factor have one quotient. -/
theorem EFraction.Scales.quotient [FpMethods F] (scales : f.Scales g) (defined : g.vd ≠ 0) :
    f.v * zpInvert f.vd = g.v * zpInvert g.vd := by
  obtain ⟨c, nonzero, rfl⟩ := scales
  rw [zpInvert_eq (mul_ne_zero nonzero defined), zpInvert_eq defined]
  field_simp

end Fractions

section Loops

variable {F : Type*} [Field F] [DecidableEq F] [FpMethods F] (two : (2 : F) ≠ 0) {a b : F}
  {P : (short a b).Point} {r : ℕ}

omit [DecidableEq F] in
/-- The tangent is scaled by `z^6`. -/
theorem eProjTangent_eq {s : ProjState F} {Z : PointS F} (projects : s.Projects Z.x Z.y) :
    eProjTangent a s = ⟨s.z ^ 6 * (doTangent a Z).a, s.z ^ 6 * (doTangent a Z).b,
      s.z ^ 6 * (doTangent a Z).c⟩ := by
  simp only [eProjTangent, doTangent, projects.square, projects.abscissa, projects.ordinate,
    FieldMethods.square_eq, FieldMethods.double_eq, PpCoeff.mk.injEq]
  refine ⟨?_, ?_, ?_⟩
  · ring
  · ring
  · ring

/-- The Jacobian state is that of a finite affine point object. -/
structure ProjState.Matches (s : ProjState F) (Z : PointS F) : Prop where
  finite : Z.infFlag = false
  flag : s.Z.infFlag = false
  projects : s.Projects Z.x Z.y

omit [DecidableEq F] in
/-- Normalised, the state holds the point object. -/
theorem pointToAffine_matches {s : ProjState F} {Z : PointS F} (same : s.Matches Z) :
    pointToAffine s = ⟨Z, 1, 1⟩ := by
  rw [pointToAffine_eq same.projects, same.flag, ← same.finite]

include two in
/-- `n` turns of both loops from the multiple by `2^i`. -/
theorem eMillerLoop_simulates (odd : Odd r) (proper : r ≠ 1) (order : addOrderOf P = r)
    (QR R : PointS F) (n i : ℕ) {Z : PointS F} {s : ProjState F} {f g : EFraction F}
    (multiple : Z.Represents (2 ^ i • P)) (same : s.Matches Z) (scales : f.Scales g) :
    ∃ Z' g' s' f', eMillerAffineLoop a QR R n Z g = .ok (Z', g') ∧
      eMillerProjLoop a QR R n s f = (s', f') ∧ Z'.Represents (2 ^ (i + n) • P) ∧
      s'.Matches Z' ∧ f'.Scales g' := by
  induction n generalizing i Z s f g with
  | zero => exact ⟨Z, g, s, f, rfl, rfl, multiple, same, scales⟩
  | succ n ih =>
    obtain ⟨x, y, on, point, axis⟩ :=
      exists_nsmul_eq_some_of_not_dvd odd order (not_dvd_two_pow odd proper i)
    obtain ⟨x₂, y₂, on₂, point₂, -⟩ :=
      exists_nsmul_eq_some_of_not_dvd odd order (not_dvd_two_pow odd proper (i + 1))
    have double : 2 ^ i • P + 2 ^ i • P = 2 ^ (i + 1) • P := by
      rw [← two_nsmul, ← mul_nsmul, pow_succ]
    have doubled := curveDouble_nsmul two Z multiple
    rw [← pow_succ', point₂, PointS.assign_some] at doubled
    rw [point, PointS.represents_some_iff] at multiple
    rw [point, point₂] at double
    have tangent := eProjTangent_eq (a := a) same.projects
    subst multiple
    have next : (projDouble .x .y a s).Projects x₂ y₂ :=
      projDouble_projects two same.projects axis double
    have represents : (PointS.mk false x₂ y₂).Represents (2 ^ (i + 1) • P) := by
      rw [point₂]
      rfl
    have line := eMulLine_scales QR R (pow_ne_zero 6 same.projects.nonzero)
      (doTangent a ⟨false, x, y⟩) (eSquares_scales scales)
    rw [← tangent] at line
    have vertical := eProjVerticalBelow_scales QR R next.nonzero x₂ line
    rw [← next.abscissa, ← next.square] at vertical
    have same₂ : (projDouble .x .y a s).Matches ⟨false, x₂, y₂⟩ := ⟨rfl, same.flag, next⟩
    have run := ih (i + 1) represents same₂ vertical
    rw [Nat.add_right_comm, Nat.add_assoc] at run
    simpa only [eMillerAffineLoop, eMillerProjLoop, doubled, bind, Except.bind] using run

end Loops

section Runs

variable {F : Type*} [Field F] [DecidableEq F] [FpMethods F] (two : (2 : F) ≠ 0)
  (p : EPairingData F) {P : (short p.a p.b).Point} {r : ℕ} {in1 : PointS F}

include two

/-- Both runs return, with fractions that differ by a factor. -/
theorem eMillerFraction_scales (odd : Odd r) (proper : r ≠ 1) (order : addOrderOf P = r)
    (represents : in1.Represents P) (QR R : PointS F) :
    ∃ f g, eMillerProjFraction p in1 QR R = .ok f ∧ eMillerAffineFraction p in1 QR R = .ok g ∧
      f.Scales g := by
  obtain ⟨x, y, on, point, -⟩ :=
    exists_nsmul_eq_some_of_not_dvd odd order (not_dvd_two_pow odd proper 0)
  rw [pow_zero, one_nsmul] at point
  have copied : curveSet curveInit in1 = ⟨false, x, y⟩ := by
    rw [curveSet_eq curveInit represents, point, PointS.assign_some]
  have start : (PointS.mk false x y).Represents (2 ^ 0 • P) := by
    rw [pow_zero, one_nsmul, point]
    rfl
  have single : ProjState.Matches ⟨⟨false, x, y⟩, 1, 1⟩ ⟨false, x, y⟩ :=
    ⟨rfl, rfl, ProjState.projects_one _⟩
  obtain ⟨Z₁, g₁, s₁, f₁, affine₁, proj₁, multiple₁, same₁, scales₁⟩ :=
    eMillerLoop_simulates two odd proper order QR R p.exp1 0 start single (.refl ⟨1, 1⟩)
  have normal : ProjState.Matches ⟨Z₁, 1, 1⟩ Z₁ :=
    ⟨same₁.finite, same₁.finite, ProjState.projects_one _⟩
  obtain ⟨Z₂, g₂, s₂, f₂, affine₂, proj₂, multiple₂, same₂, scales₂⟩ :=
    eMillerLoop_simulates two odd proper order QR R (p.exp2 - p.exp1) (0 + p.exp1) multiple₁ normal
      scales₁
  -- The kept point and its value, by the sign between the powers.
  obtain ⟨A, kept⟩ : ∃ A : (short p.a p.b).Point, (if p.sign1 < 0 then curveInvert curveInit Z₁
      else curveSet curveInit Z₁).Represents A := by
    split
    · exact ⟨_, by rw [curveInvert_eq curveInit multiple₁]; exact PointS.assign_represents _ _⟩
    · exact ⟨_, by rw [curveSet_eq curveInit multiple₁]; exact PointS.assign_represents _ _⟩
  have value : EFraction.Scales
      (if p.sign1 < 0 then eProjVerticalBelow QR R 1 Z₁.x ⟨f₁.vd, f₁.v⟩ else f₁)
      (if p.sign1 < 0 then eVerticalBelow QR R Z₁.x ⟨g₁.vd, g₁.v⟩ else g₁) := by
    split
    · have vertical := eProjVerticalBelow_scales QR R one_ne_zero Z₁.x scales₁.swap
      rwa [one_pow, mul_one] at vertical
    · exact scales₁
  obtain ⟨Z₃, sum⟩ : ∃ Z₃, curveMul p.a Z₂ Z₂ (if p.sign1 < 0 then curveInvert curveInit Z₁
      else curveSet curveInit Z₁) = .ok Z₃ := ⟨_, curveMul_ok two Z₂ multiple₂ kept⟩
  refine ⟨_, _, ?_, ?_, eMillerEnd_scales QR R (computeAbcLine Z₂ (if p.sign1 < 0 then
    curveInvert curveInit Z₁ else curveSet curveInit Z₁)) Z₃.x in1.x p.sign0 (scales₂.mul value)⟩
  · simp only [eMillerProjFraction, copied, proj₁, pointToAffine_matches same₁, proj₂,
      pointToAffine_matches same₂, sum, bind, Except.bind]
    rfl
  · simp only [eMillerAffineFraction, copied, affine₁, affine₂, sum, bind, Except.bind]
    rfl

/-- The two values of the option compute one element, wherever the denominator of the affine
loop is nonzero. -/
theorem eMiller_methods_eq (odd : Odd r) (proper : r ≠ 1) (order : addOrderOf P = r)
    (represents : in1.Represents P) (QR R : PointS F) (methods : EMethods) :
    ∃ g, eMillerAffineFraction p in1 QR R = .ok g ∧ (g.vd ≠ 0 → ∃ w,
      eMillerFn (ePairingOptionSet methods "method" "miller") p in1 QR R = .ok w ∧
      eMillerFn (ePairingOptionSet methods "method" "miller-affine") p in1 QR R = .ok w) := by
  obtain ⟨f, g, proj, affine, scales⟩ :=
    eMillerFraction_scales two p odd proper order represents QR R
  refine ⟨g, affine, fun defined => ⟨g.v * zpInvert g.vd, ?_, ?_⟩⟩
  · change eMillerProj p in1 QR R = _
    rw [eMillerProj, proj, ← scales.quotient defined]
    rfl
  · change eMillerAffine p in1 QR R = _
    rw [eMillerAffine, affine]
    rfl

end Runs

section Small

private local instance primeSeventeen : Fact (Nat.Prime 17) := ⟨by decide⟩

/-- A curve of order 14 with the offset `(0, 15)`, for the order `7 = 2^2 + 2 + 1`. -/
def smallE : EPairingData (ZMod 17) := pairingInitEParam 1 4 17 7 2 1 1 1 ⟨false, 0, 15⟩

/-- A point of order 7. -/
def smallEPoint : (short smallE.a smallE.b).Point :=
  .some 4 2 (short_nonsingular (by decide) (by decide) (by decide))

theorem smallEPoint_represents : PointS.Represents ⟨false, 4, 2⟩ smallEPoint := rfl

theorem addOrderOf_smallEPoint : addOrderOf smallEPoint = 7 := by
  exact addOrderOf_eq_of_curvePowMpz (by norm_num) (by decide) smallEPoint_represents rfl
    (by decide)

/-- Both methods at two points outside the subgroup. -/
theorem eMiller_methods_eq_small :
    ∃ w, eMillerFn (ePairingOptionSet ⟨.miller, true⟩ "method" "miller") smallE ⟨false, 4, 2⟩
        ⟨false, 0, 2⟩ ⟨false, 0, 15⟩ = .ok w ∧
      eMillerFn (ePairingOptionSet ⟨.miller, true⟩ "method" "miller-affine") smallE ⟨false, 4, 2⟩
        ⟨false, 0, 2⟩ ⟨false, 0, 15⟩ = .ok w := by
  obtain ⟨g, affine, equal⟩ := eMiller_methods_eq (by decide) smallE (by decide) (by decide)
    addOrderOf_smallEPoint smallEPoint_represents ⟨false, 0, 2⟩ ⟨false, 0, 15⟩ ⟨.miller, true⟩
  have value : (eMillerAffineFraction smallE ⟨false, 4, 2⟩ ⟨false, 0, 2⟩
      ⟨false, 0, 15⟩).toOption.any (fun g => g.vd = 11) = true := by decide
  rw [affine] at value
  replace value : g.vd = 11 := of_decide_eq_true value
  apply equal
  rw [value]
  decide

end Small

end Pbc.Ecc
