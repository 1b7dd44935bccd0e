import Pbc.Algebra.Frobenius
import Pbc.Ecc.AParam
import Pbc.Elliptic.Miller

/-!
# The type A Miller loops

Each of the three runs meets the lines of the doublings of the first point, up to
scalars, and ends with the chord that makes the order. The value it hands to the
final powering is, up to scalars of `F_q`, the product of the lines along the
multiples of the point, so all three give one pairing.
-/

open Pbc.Arith Pbc.Gmp Pbc.Algebra Pbc.Elliptic

namespace Pbc.Ecc

section Lines

variable {F : Type*} [Field F] [DecidableEq F] [FpMethods F]

omit [DecidableEq F] [FpMethods F] in
/-- The evaluation routine computes the line at the distorted point. -/
theorem aMillerEvalfn_eq (line : PpCoeff F) (Qx Qy : F) :
    aMillerEvalfn line Qx Qy = lineAt (-1 : F) line.a line.b line.c (-Qx) Qy := by
  ext
  · simp only [aMillerEvalfn, lineAt, Algebra.algebraMap_self, RingHom.id_apply]
    ring
  · simp only [aMillerEvalfn, lineAt, Algebra.algebraMap_self, RingHom.id_apply]

/-- The image `(-x, i y)` of a point of the curve. -/
@[simps] def distort {x y : F} (on : (short (1 : F) 0).Nonsingular x y) (axis : y ≠ 0) :
    TwistPoint (1 : F) 0 (-1 : F) where
  x := -x
  y := y
  on := by
    have curve := short_nonsingular_eq on
    rw [map_one, map_zero]
    linear_combination -curve
  nonzero := axis

/-- A state of the Jacobian loop for a finite point. -/
def ProjState.ProjectsPoint (s : ProjState F) (A : (short (1 : F) 0).Point) : Prop :=
  ∃ x y on, A = .some x y on ∧ s.Z.infFlag = false ∧ s.Projects x y

variable [nonsquare : Fact (∀ r : F, r ^ 2 ≠ -1 + 0 * r)] (two : (2 : F) ≠ 0)
  (Q : TwistPoint (1 : F) 0 (-1 : F))

include two in
/-- The coefficients of the Jacobian tangent are those of the tangent times `z^6`. -/
theorem computeAbcTangentProj_meets {s : ProjState F} {x y : F}
    (on : (short (1 : F) 0).Nonsingular x y) (axis : y ≠ 0) (projects : s.Projects x y) :
    Q.MeetsLine (.some x y on) (.some x y on)
      (aMillerEvalfn (computeAbcTangentProj s) (-Q.x) Q.y) := by
  rw [aMillerEvalfn_eq, neg_neg]
  apply Q.meetsLine_tangent two on axis (pow_ne_zero 6 projects.nonzero)
  · simp only [computeAbcTangentProj, projects.square, projects.abscissa, FieldMethods.square_eq,
      FieldMethods.double_eq]
    ring
  · simp only [computeAbcTangentProj, projects.square, projects.ordinate, FieldMethods.double_eq]
    ring
  · simp only [computeAbcTangentProj, projects.square, projects.abscissa, projects.ordinate,
      FieldMethods.square_eq, FieldMethods.double_eq]
    ring

include two in
theorem computeAbcTangent_meets {V : PointS F} {x y : F}
    (on : (short (1 : F) 0).Nonsingular x y) (axis : y ≠ 0) (value : V = ⟨false, x, y⟩) :
    Q.MeetsLine (.some x y on) (.some x y on)
      (aMillerEvalfn (computeAbcTangent V) (-Q.x) Q.y) := by
  rw [aMillerEvalfn_eq, neg_neg, value]
  apply Q.meetsLine_tangent two on axis one_ne_zero
  · simp only [computeAbcTangent, FieldMethods.square_eq]
    ring
  · simp only [computeAbcTangent, FieldMethods.double_eq]
    ring
  · simp only [computeAbcTangent, FieldMethods.square_eq, FieldMethods.double_eq]
    ring

omit [FpMethods F] in
theorem computeAbcLine_meets {V V1 : PointS F} {x y x₁ y₁ : F}
    (on : (short (1 : F) 0).Nonsingular x y) (on₁ : (short (1 : F) 0).Nonsingular x₁ y₁)
    (distinct : x ≠ x₁) (left : V.x = x ∧ V.y = y) (right : V1.x = x₁ ∧ V1.y = y₁) :
    Q.MeetsLine (.some x y on) (.some x₁ y₁ on₁)
      (aMillerEvalfn (computeAbcLine V V1) (-Q.x) Q.y) := by
  obtain ⟨rfl, rfl⟩ := left
  obtain ⟨rfl, rfl⟩ := right
  rw [aMillerEvalfn_eq, neg_neg]
  apply Q.meetsLine_chord on on₁ distinct one_ne_zero
  · simp only [computeAbcLine, one_mul]
  · simp only [computeAbcLine, one_mul]
  · simp only [computeAbcLine]
    ring

omit nonsquare in
include two in
/-- `proj_double` doubles. -/
theorem aProjDouble_projects {s : ProjState F} {x y x₂ y₂ : F}
    {on : (short (1 : F) 0).Nonsingular x y} {on₂ : (short (1 : F) 0).Nonsingular x₂ y₂}
    (projects : s.Projects x y) (axis : y ≠ 0)
    (double : WeierstrassCurve.Affine.Point.some x y on + .some x y on = .some x₂ y₂ on₂) :
    (aProjDouble s).Projects x₂ y₂ := by
  obtain ⟨rfl, rfl⟩ := double_coordinates two axis double
  have scale := projects.nonzero
  constructor
  · simp only [aProjDouble, FieldMethods.double_eq, projects.ordinate]
    rw [← two_mul]
    positivity
  · simp only [aProjDouble, FieldMethods.square_eq, sq]
  · simp only [aProjDouble, FieldMethods.double_eq, FieldMethods.square_eq, projects.square,
      projects.abscissa, projects.ordinate]
    field_simp
    ring
  · simp only [aProjDouble, FieldMethods.double_eq, FieldMethods.square_eq, projects.square,
      projects.abscissa, projects.ordinate]
    field_simp
    ring

omit [DecidableEq F] nonsquare in
/-- `point_to_affine` divides by the scale. -/
theorem pointToAffine_eq {s : ProjState F} {x y : F} (projects : s.Projects x y) :
    pointToAffine s = ⟨⟨s.Z.infFlag, x, y⟩, 1, 1⟩ := by
  have scale := projects.nonzero
  simp only [pointToAffine, zpInvert_eq scale, FieldMethods.square_eq, projects.abscissa,
    projects.ordinate]
  congr 2
  · field_simp
  · field_simp

end Lines

section Orders

/-- No power of two is a multiple of a larger odd number than one. -/
theorem not_dvd_two_pow {r : ℕ} (odd : Odd r) (proper : r ≠ 1) (n : ℕ) : ¬r ∣ 2 ^ n := fun divides =>
  proper (Nat.Coprime.eq_one_of_dvd (Nat.Coprime.pow_right n (Nat.coprime_two_right.mpr odd)) divides)

variable {param : AParam}

theorem AParam.Valid.odd (valid : param.Valid) : Odd param.r := by
  have large := valid.large
  exact valid.prime.odd_of_ne_two (by omega)

/-- Of two powers of two the larger is twice the smaller, or at least four times. -/
private theorem two_pow_apart {m n : ℕ} (ordered : m < n) :
    (2 : ℤ) ^ n = 2 * 2 ^ m ∨ 4 * 2 ^ m ≤ (2 : ℤ) ^ n := by
  obtain ⟨gap, rfl⟩ := Nat.exists_eq_add_of_lt ordered
  have power : (2 : ℤ) ^ (m + gap + 1) = 2 * (2 ^ gap * 2 ^ m) := by
    rw [pow_succ, pow_add]
    ring
  rcases gap with _ | gap
  · left
    rw [power]
    ring
  · right
    have positive : (0 : ℤ) < 2 ^ m := by positivity
    have one : (1 : ℤ) ≤ 2 ^ gap := one_le_pow₀ (by norm_num)
    rw [power, pow_succ]
    nlinarith

private theorem le_of_dvd {r z : ℤ} (divides : r ∣ z) (nonzero : z ≠ 0) : r ≤ z ∨ r ≤ -z :=
  le_abs.mp (Int.le_of_dvd (abs_pos.mpr nonzero) ((dvd_abs r z).mpr divides))

private theorem AParam.Valid.not_dvd_sum (valid : param.Valid) :
    ¬(param.r : ℤ) ∣ 2 ^ param.exp2 + param.sign1 * 2 ^ param.exp1 := by
  intro divides
  have large : (7 : ℤ) ≤ param.r := by exact_mod_cast valid.large
  have unit : (param.r : ℤ) ∣ param.sign0 := by
    have difference := dvd_sub (dvd_refl (param.r : ℤ)) divides
    rwa [show (param.r : ℤ) - (2 ^ param.exp2 + param.sign1 * 2 ^ param.exp1) = param.sign0 by
      rw [valid.form, add_sub_cancel_left]] at difference
  rcases valid.sign0 with sign | sign
  · rw [sign] at unit
    have := le_of_dvd unit (by decide)
    omega
  · rw [sign] at unit
    have := le_of_dvd unit (by decide)
    omega

private theorem AParam.Valid.not_dvd_difference (valid : param.Valid)
    (ordered : param.exp1 < param.exp2) :
    ¬(param.r : ℤ) ∣ 2 ^ param.exp2 - param.sign1 * 2 ^ param.exp1 := by
  intro divides
  have large : (7 : ℤ) ≤ param.r := by exact_mod_cast valid.large
  have form := valid.form
  have positive : (0 : ℤ) < 2 ^ param.exp1 := by positivity
  have above := two_pow_apart ordered
  generalize (2 : ℤ) ^ param.exp2 = u at *
  generalize (2 : ℤ) ^ param.exp1 = t at *
  generalize (param.r : ℤ) = r at *
  have rest : r ∣ 2 * (param.sign1 * t) + param.sign0 := by
    have difference := dvd_sub (dvd_refl r) divides
    rwa [show r - (u - param.sign1 * t) = 2 * (param.sign1 * t) + param.sign0 by
      rw [form]; ring] at difference
  have small := le_of_dvd rest (by rcases valid.sign0 with sign | sign <;> omega)
  rcases valid.sign1 with first | first <;> rcases valid.sign0 with second | second <;>
    rw [first, second] at form small rest
  · omega
  · omega
  · rcases above with twice | more
    · have three : r ∣ 3 := by
        have difference := dvd_add rest (Dvd.intro_left 2 rfl : r ∣ 2 * r)
        rwa [show 2 * (-1 * t) + 1 + 2 * r = 3 by rw [form, twice]; ring] at difference
      have := le_of_dvd three (by decide)
      omega
    · omega
  · rcases above with twice | more
    · have three : r ∣ -3 := by
        have difference := dvd_add rest (Dvd.intro_left 2 rfl : r ∣ 2 * r)
        rwa [show 2 * (-1 * t) + -1 + 2 * r = -3 by rw [form, twice]; ring] at difference
      have := le_of_dvd three (by decide)
      omega
    · omega

/-- The last chord joins two points that are neither equal nor opposite. -/
theorem AParam.Valid.not_dvd (valid : param.Valid) (ordered : param.exp1 < param.exp2) :
    ¬(param.r : ℤ) ∣ 2 ^ param.exp2 + 2 ^ param.exp1 ∧
      ¬(param.r : ℤ) ∣ 2 ^ param.exp2 - 2 ^ param.exp1 := by
  have signed := And.intro valid.not_dvd_sum (valid.not_dvd_difference ordered)
  rcases valid.sign1 with sign | sign
  · rw [sign, one_mul] at signed
    exact signed
  · rw [sign, neg_one_mul, ← sub_eq_add_neg, sub_neg_eq_add] at signed
    exact signed.symm

end Orders

section Loops

variable {F : Type*} [Field F] [DecidableEq F] [FpMethods F]
  [nonsquare : Fact (∀ r : F, r ^ 2 ≠ -1 + 0 * r)] (two : (2 : F) ≠ 0)
  (Q : TwistPoint (1 : F) 0 (-1 : F)) {P : (short (1 : F) 0).Point} {r : ℕ} (odd : Odd r)
  (proper : r ≠ 1) (order : addOrderOf P = r)

include two odd proper order

/-- `n` turns of the Jacobian loop double the multiple `n` times. -/
theorem aPairingProjLoop_ok (n i : ℕ) {s : ProjState F} {f : FiData F}
    (projects : s.ProjectsPoint (2 ^ i • P)) (before : Q.Accumulates P (2 ^ i) f) :
    ∃ s' f', aPairingProjLoop (-Q.x) Q.y n s f = (s', f') ∧ s'.ProjectsPoint (2 ^ (i + n) • P) ∧
      Q.Accumulates P (2 ^ (i + n)) f' := by
  induction n generalizing i s f with
  | zero => exact ⟨s, f, rfl, projects, before⟩
  | succ n ih =>
    obtain ⟨x, y, on, point, finite, coordinates⟩ := projects
    obtain ⟨x', y', on', point', axis⟩ :=
      exists_nsmul_eq_some_of_not_dvd odd order (not_dvd_two_pow odd proper i)
    obtain ⟨x₂, y₂, on₂, point₂, -⟩ :=
      exists_nsmul_eq_some_of_not_dvd odd order (not_dvd_two_pow odd proper (i + 1))
    rw [point, WeierstrassCurve.Affine.Point.some.injEq] at point'
    rw [← point'.2] at axis
    have tangent := computeAbcTangentProj_meets two Q on axis coordinates
    have double : 2 ^ i • P + 2 ^ i • P = 2 ^ (i + 1) • P := by
      rw [← two_nsmul, ← mul_nsmul, pow_succ]
    rw [point, point₂] at double
    have projects₂ := aProjDouble_projects two coordinates axis double
    rw [← point] at tangent
    have after := before.double tangent
    rw [← pow_succ'] at after
    have next := ih (i + 1) (s := aProjDouble s) ⟨x₂, y₂, on₂, point₂, finite, projects₂⟩ after
    rw [Nat.add_right_comm, Nat.add_assoc] at next
    simpa only [aPairingProjLoop, fiSquare_eq, fiMul_eq] using next

/-- `n` turns of the affine loop do the same. -/
theorem aPairingAffineLoop_ok (n i : ℕ) {V : PointS F} {f : FiData F}
    (represents : V.Represents (2 ^ i • P)) (before : Q.Accumulates P (2 ^ i) f) :
    ∃ V' f', aPairingAffineLoop (-Q.x) Q.y n V f = .ok (V', f') ∧
      V'.Represents (2 ^ (i + n) • P) ∧ Q.Accumulates P (2 ^ (i + n)) f' := by
  induction n generalizing i V f with
  | zero => exact ⟨V, f, rfl, represents, before⟩
  | succ n ih =>
    obtain ⟨x, y, on, point, axis⟩ :=
      exists_nsmul_eq_some_of_not_dvd odd order (not_dvd_two_pow odd proper i)
    have doubled := curveDouble_nsmul two V represents
    rw [← pow_succ'] at doubled
    rw [point, PointS.represents_some_iff] at represents
    have tangent := computeAbcTangent_meets two Q on axis represents
    rw [← point] at tangent
    have after := before.double tangent
    rw [← pow_succ'] at after
    have next := ih (i + 1) (V.assign_represents _) after
    rw [Nat.add_right_comm, Nat.add_assoc] at next
    simpa only [aPairingAffineLoop, fiSquare_eq, fiMul_eq, doubled, bind, Except.bind] using next

omit odd proper order in
omit [DecidableEq F] [FpMethods F] nonsquare two in
theorem projectsPoint_one {V : PointS F} {A : (short (1 : F) 0).Point} (represents : V.Represents A)
    (finite : A ≠ 0) : ProjState.ProjectsPoint ⟨V, 1, 1⟩ A := by
  cases A with
  | zero => exact absurd rfl finite
  | some x y on =>
    rw [PointS.represents_some_iff] at represents
    subst represents
    exact ⟨x, y, on, rfl, rfl, ProjState.projects_one _⟩

omit [DecidableEq F] odd proper order nonsquare two in
/-- `point_to_affine` leaves an object of the point. -/
theorem pointToAffine_represents {s : ProjState F} {A : (short (1 : F) 0).Point}
    (projects : s.ProjectsPoint A) : ∃ V, pointToAffine s = ⟨V, 1, 1⟩ ∧ V.Represents A := by
  obtain ⟨x, y, on, rfl, finite, coordinates⟩ := projects
  exact ⟨⟨s.Z.infFlag, x, y⟩, pointToAffine_eq coordinates, by rw [finite]; rfl⟩

end Loops

section Finish

variable {F : Type*} [Field F] [DecidableEq F] [FpMethods F]
  [nonsquare : Fact (∀ r : F, r ^ 2 ≠ -1 + 0 * r)]
  (Q : TwistPoint (1 : F) 0 (-1 : F)) {P : (short (1 : F) 0).Point} {param : AParam}

omit [FpMethods F] nonsquare in
/-- Two powers of two give points with distinct abscissas. -/
theorem AParam.Valid.distinct (valid : param.Valid) (ordered : param.exp1 < param.exp2)
    (order : addOrderOf P = param.r) {x₁ y₁ x₂ y₂ : F} {on₁ : (short (1 : F) 0).Nonsingular x₁ y₁}
    {on₂ : (short (1 : F) 0).Nonsingular x₂ y₂} (point₁ : 2 ^ param.exp1 • P = .some x₁ y₁ on₁)
    (point₂ : 2 ^ param.exp2 • P = .some x₂ y₂ on₂) : x₂ ≠ x₁ := by
  rintro rfl
  obtain ⟨notOpposite, notEqual⟩ := valid.not_dvd ordered
  have zsmul (n : ℕ) : ((2 : ℤ) ^ n) • P = 2 ^ n • P := by
    rw [← natCast_zsmul, Nat.cast_pow, Nat.cast_ofNat]
  rw [← order, addOrderOf_dvd_iff_zsmul_eq_zero] at notOpposite notEqual
  have either : WeierstrassCurve.Affine.Point.some _ _ on₂ = .some _ _ on₁ ∨ _ :=
    eq_or_add_eq_zero_of_x_eq
  rcases either with equal | opposite
  · apply notEqual
    rw [sub_zsmul, zsmul, zsmul, point₁, point₂, equal, add_neg_cancel]
  · apply notOpposite
    rw [add_zsmul, zsmul, zsmul, point₁, point₂, opposite]

omit [FpMethods F] in
/-- The count reached is the order up to the last sign. -/
theorem AParam.Valid.accumulates (valid : param.Valid) (order : addOrderOf P = param.r) {n : ℕ}
    (count : (param.r : ℤ) = n + param.sign0) {v : FiData F} (before : Q.Accumulates P n v) :
    Q.Accumulates P param.r v := by
  have zero := addOrderOf_nsmul_self order
  rcases valid.sign0 with sign | sign
  · have next : param.r = n + 1 := by omega
    rw [next] at zero ⊢
    exact before.last zero
  · have next : n = param.r + 1 := by omega
    rw [next] at before
    exact before.beyond zero

/-- The last chord joins the two signed powers of two to the order. -/
theorem accumulates_chord (valid : param.Valid) (ordered : param.exp1 < param.exp2)
    (order : addOrderOf P = param.r) {f f1 : FiData F} {V V1 W : PointS F}
    (first : Q.Accumulates P (2 ^ param.exp1) f1) (second : Q.Accumulates P (2 ^ param.exp2) f)
    (represents1 : V1.Represents (2 ^ param.exp1 • P))
    (represents2 : V.Represents (2 ^ param.exp2 • P)) :
    Q.Accumulates P param.r (fiMul (fiMul f (if param.sign1 < 0 then fiInvert f1 else f1))
      (aMillerEvalfn (computeAbcLine V
        (if param.sign1 < 0 then curveInvert W V1 else curveSet W V1)) (-Q.x) Q.y)) := by
  have proper : param.r ≠ 1 := by
    have := valid.large
    omega
  obtain ⟨x₁, y₁, on₁, point₁, -⟩ :=
    exists_nsmul_eq_some_of_not_dvd valid.odd order (not_dvd_two_pow valid.odd proper param.exp1)
  obtain ⟨x₂, y₂, on₂, point₂, -⟩ :=
    exists_nsmul_eq_some_of_not_dvd valid.odd order (not_dvd_two_pow valid.odd proper param.exp2)
  have distinct := valid.distinct ordered order point₁ point₂
  have form := valid.form
  have powers : 2 ^ param.exp1 ≤ 2 ^ param.exp2 := Nat.pow_le_pow_right (by norm_num) ordered.le
  rw [point₂, PointS.represents_some_iff] at represents2
  rcases valid.sign1 with sign | sign
  · rw [sign, if_neg (by decide), if_neg (by decide), curveSet_eq W represents1, point₁, fiMul_eq,
      fiMul_eq]
    have right : (PointS.mk false x₁ y₁).x = x₁ ∧ (PointS.mk false x₁ y₁).y = y₁ := ⟨rfl, rfl⟩
    have chord := computeAbcLine_meets Q on₂ on₁ distinct (V := V)
      (by rw [represents2]; exact ⟨rfl, rfl⟩) right
    rw [← point₂, ← point₁] at chord
    refine valid.accumulates Q order ?_ (second.add first chord)
    rw [form, sign]
    push_cast
    ring
  · have opposite : (short (1 : F) 0).Nonsingular x₁ (-y₁) := by
      simpa using (WeierstrassCurve.Affine.nonsingular_neg x₁ y₁).mpr on₁
    have negated : -(2 ^ param.exp1 • P) = .some x₁ (-y₁) opposite := by
      rw [point₁, WeierstrassCurve.Affine.Point.neg_some,
        WeierstrassCurve.Affine.Point.some.injEq, short_negY]
      exact ⟨rfl, rfl⟩
    rw [sign, if_pos (by decide), if_pos (by decide), curveInvert_eq W represents1, negated,
      fiMul_eq, fiMul_eq, fiInvert_eq first.nonzero]
    have right : (PointS.mk false x₁ (-y₁)).x = x₁ ∧ (PointS.mk false x₁ (-y₁)).y = -y₁ := ⟨rfl, rfl⟩
    have chord := computeAbcLine_meets Q on₂ opposite distinct (V := V)
      (by rw [represents2]; exact ⟨rfl, rfl⟩) right
    rw [← point₂, ← negated] at chord
    refine valid.accumulates Q order ?_ (second.sub first powers chord)
    rw [form, sign, Nat.cast_sub powers]
    push_cast
    ring

end Finish

end Pbc.Ecc
