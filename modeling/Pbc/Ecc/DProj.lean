import Pbc.Ecc.DMiller

/-!
# The projective loop of type D

With its two pointers bound to the two coordinates, the loop in Jacobian
coordinates meets the lines of the affine one, each scaled by a power of the
third coordinate. The routine binds both pointers to the first coordinate; it
runs like that loop as long as the two coordinates it would read are equal.
-/

open Pbc.Arith Pbc.Gmp Pbc.Number Pbc.Algebra Pbc.Elliptic

namespace Pbc.Ecc

variable {F : Type*} [Field F] [DecidableEq F] [FpMethods F] {n : ℕ} {poly : Fin n → F} {nqr : F}

section Lines

variable (two : (2 : F) ≠ 0) {a b : F}

omit [DecidableEq F] in
/-- The tangent is scaled by `z^6`. -/
theorem projDoTangent_eq {s : ProjState F} {Z : PointS F} (projects : s.Projects Z.x Z.y) :
    projDoTangent .x .y a s = ⟨s.z ^ 6 * (doTangent a Z).a, s.z ^ 6 * (doTangent a Z).b,
      s.z ^ 6 * (doTangent a Z).c⟩ := by
  simp only [projDoTangent, doTangent, PointS.coord, projects.square, projects.abscissa,
    projects.ordinate, FieldMethods.square_eq, FieldMethods.double_eq, PpCoeff.mk.injEq]
  refine ⟨?_, ?_, ?_⟩
  · ring
  · ring
  · ring

omit [DecidableEq F] [FpMethods F] in
/-- The chord is scaled by `z^3`. -/
theorem projDoLine_eq {s : ProjState F} {Z : PointS F} (projects : s.Projects Z.x Z.y)
    (P : PointS F) :
    projDoLine .x .y P s =
      ⟨s.z ^ 3 * (doLine P Z).a, s.z ^ 3 * (doLine P Z).b, s.z ^ 3 * (doLine P Z).c⟩ := by
  simp only [projDoLine, doLine, PointS.coord, projects.square, projects.abscissa,
    projects.ordinate, PpCoeff.mk.injEq]
  refine ⟨?_, ?_, ?_⟩
  · ring
  · ring
  · ring

include two

/-- `proj_double` doubles. -/
theorem projDouble_projects {s : ProjState F} {x y x₂ y₂ : F} {on : (short a b).Nonsingular x y}
    {on₂ : (short a b).Nonsingular x₂ y₂} (projects : s.Projects x y) (axis : y ≠ 0)
    (double : WeierstrassCurve.Affine.Point.some x y on + .some x y on = .some x₂ y₂ on₂) :
    (projDouble .x .y a s).Projects x₂ y₂ := by
  obtain ⟨rfl, rfl⟩ := double_coordinates two axis double
  have scale := projects.nonzero
  have double : (2 : F) * y ≠ 0 := mul_ne_zero two axis
  constructor
  · simp only [projDouble, PointS.coord, FieldMethods.double_eq, projects.ordinate]
    rw [← two_mul]
    positivity
  · simp only [projDouble, FieldMethods.square_eq, sq]
  · simp only [projDouble, PointS.coord, PointS.setCoord, FieldMethods.double_eq,
      FieldMethods.square_eq, projects.square, projects.abscissa, projects.ordinate]
    field_simp
    ring
  · simp only [projDouble, PointS.coord, PointS.setCoord, FieldMethods.double_eq,
      FieldMethods.square_eq, projects.square, projects.abscissa, projects.ordinate]
    field_simp
    ring

/-- `proj_mixin` adds the affine point. -/
theorem projMixin_projects {s : ProjState F} {x y x₁ y₁ x₂ y₂ : F}
    {on : (short a b).Nonsingular x y} {on₁ : (short a b).Nonsingular x₁ y₁}
    {on₂ : (short a b).Nonsingular x₂ y₂} (projects : s.Projects x y) (distinct : x ≠ x₁)
    (sum : WeierstrassCurve.Affine.Point.some x y on + .some x₁ y₁ on₁ = .some x₂ y₂ on₂)
    (p : PointS F) (single : p = ⟨false, x₁, y₁⟩) : (projMixin .x .y p s).Projects x₂ y₂ := by
  subst single
  obtain ⟨rfl, rfl⟩ := add_coordinates distinct sum
  have scale := projects.nonzero
  have apart : x - x₁ ≠ 0 := sub_ne_zero.mpr distinct
  have nonzero : s.z * (x * s.z ^ 2 - s.z ^ 2 * x₁) ≠ 0 := by
    rw [show s.z * (x * s.z ^ 2 - s.z ^ 2 * x₁) = s.z ^ 3 * (x - x₁) by ring]
    positivity
  constructor
  · simp only [projMixin, PointS.coord, projects.square, projects.abscissa]
    exact nonzero
  · simp only [projMixin, FieldMethods.square_eq, sq]
  · simp only [projMixin, PointS.coord, PointS.setCoord, FieldMethods.square_eq, projects.square,
      projects.abscissa, projects.ordinate]
    field_simp
    ring
  · simp only [projMixin, PointS.coord, PointS.setCoord, FieldMethods.square_eq, projects.square,
      projects.abscissa, projects.ordinate, zpHalve_eq two]
    field_simp
    ring

end Lines

section Simulation

variable [irreducible : Fact (Irreducible (monicPoly poly))]

omit [DecidableEq F] [FpMethods F] in
theorem dMillerEvalfn_smul (s : F) (line : PpCoeff F) (Qx Qy : Polymod poly) :
    dMillerEvalfn nqr ⟨s * line.a, s * line.b, s * line.c⟩ Qx Qy =
      algebraMap (Polymod poly) (DGt poly nqr) (algebraMap F _ s) *
        dMillerEvalfn nqr line Qx Qy := by
  rw [dMillerEvalfn_eq, dMillerEvalfn_eq, lineAt_smul]

/-- The elements of the target group that differ by a factor in `F_q^*`. -/
def DiffersByScalar (f g : DGt poly nqr) : Prop :=
  ∃ c : F, c ≠ 0 ∧ f = algebraMap (Polymod poly) (DGt poly nqr) (algebraMap F _ c) * g

omit [DecidableEq F] [FpMethods F] in
theorem DiffersByScalar.refl (f : DGt poly nqr) : DiffersByScalar f f :=
  ⟨1, one_ne_zero, by rw [map_one, map_one, one_mul]⟩

omit [DecidableEq F] [FpMethods F] in
theorem DiffersByScalar.mul {f g f' g' : DGt poly nqr} (left : DiffersByScalar f g)
    (right : DiffersByScalar f' g') : DiffersByScalar (f * f') (g * g') := by
  obtain ⟨c, nonzero, rfl⟩ := left
  obtain ⟨c', nonzero', rfl⟩ := right
  refine ⟨c * c', mul_ne_zero nonzero nonzero', ?_⟩
  rw [map_mul, map_mul]
  ring

omit [DecidableEq F] in
theorem projDoTangent_differs {cca : F} {s : ProjState F} {Z : PointS F}
    (projects : s.Projects Z.x Z.y) (Qx Qy : Polymod poly) :
    DiffersByScalar (dMillerEvalfn nqr (projDoTangent .x .y cca s) Qx Qy)
      (dMillerEvalfn nqr (doTangent cca Z) Qx Qy) :=
  ⟨s.z ^ 6, pow_ne_zero 6 projects.nonzero, by
    rw [projDoTangent_eq projects, dMillerEvalfn_smul]⟩

omit [DecidableEq F] [FpMethods F] in
theorem projDoLine_differs {s : ProjState F} {Z : PointS F} (projects : s.Projects Z.x Z.y)
    (p : PointS F) (Qx Qy : Polymod poly) :
    DiffersByScalar (dMillerEvalfn nqr (projDoLine .x .y p s) Qx Qy)
      (dMillerEvalfn nqr (doLine p Z) Qx Qy) :=
  ⟨s.z ^ 3, pow_ne_zero 3 projects.nonzero, by
    rw [projDoLine_eq projects, dMillerEvalfn_smul]⟩

variable (two : (2 : F) ≠ 0) {a b : F} {P : (short a b).Point} {r k : ℕ} {p Z Z₂ : PointS F}
  {s : ProjState F}

include two

omit irreducible in
theorem projDouble_nsmul (odd : Odd r) (order : addOrderOf P = r) (positive : 0 < k)
    (bounded : 2 * k < r) (multiple : Z.Represents (k • P)) (projects : s.Projects Z.x Z.y)
    (doubled : Z₂.Represents ((2 * k) • P)) : (projDouble .x .y a s).Projects Z₂.x Z₂.y := by
  obtain ⟨x, y, on, point, axis⟩ := exists_nsmul_eq_some odd order positive (by omega)
  obtain ⟨x₂, y₂, on₂, point₂, -⟩ := exists_nsmul_eq_some odd order (k := 2 * k) (by omega) bounded
  have double : k • P + k • P = (2 * k) • P := by rw [← two_nsmul, ← mul_nsmul']
  rw [point, PointS.represents_some_iff] at multiple
  rw [point₂, PointS.represents_some_iff] at doubled
  rw [point, point₂] at double
  subst multiple doubled
  exact projDouble_projects two projects axis double

omit irreducible in
theorem projMixin_nsmul (odd : Odd r) (order : addOrderOf P = r) (above : 1 < k)
    (below : k + 1 < r) (multiple : Z.Represents (k • P)) (projects : s.Projects Z.x Z.y)
    (represents : p.Represents P) (added : Z₂.Represents ((k + 1) • P)) :
    (projMixin .x .y p s).Projects Z₂.x Z₂.y := by
  obtain ⟨x, y, on, point, -⟩ := exists_nsmul_eq_some odd order (k := k) (by omega) (by omega)
  obtain ⟨x₁, y₁, on₁, base, -⟩ := exists_nsmul_eq_some odd order one_pos (by omega)
  obtain ⟨x₂, y₂, on₂, point₂, -⟩ := exists_nsmul_eq_some odd order (k := k + 1) (by omega) below
  rw [one_nsmul] at base
  have distinct := nsmul_x_ne order above below base point
  have sum : k • P + P = (k + 1) • P := (succ_nsmul P k).symm
  rw [point, PointS.represents_some_iff] at multiple
  rw [point₂, PointS.represents_some_iff] at added
  rw [base, PointS.represents_some_iff] at represents
  rw [point, point₂, base] at sum
  subst multiple added
  exact projMixin_projects two projects distinct sum p represents

/-- The two loops meet the same lines up to scalars of `F_q`. -/
theorem ccMillerNoDenomProjLoop_simulates (odd : Odd r) (order : addOrderOf P = r)
    (represents : p.Represents P) (Qx Qy : Polymod poly) (m : ℕ) (bounded : m + 1 ≤ r.log2)
    {Z : PointS F} (multiple : Z.Represents ((r >>> (m + 1)) • P)) {s : ProjState F}
    (projects : s.Projects Z.x Z.y) {v w : DGt poly nqr} (scaled : DiffersByScalar v w) :
    ∃ f, ccMillerNoDenomAffineLoop a r p Qx Qy m Z w = .ok f ∧
      DiffersByScalar (ccMillerNoDenomProjLoop .x .y a r p Qx Qy m s v) f := by
  induction m generalizing Z s v w with
  | zero =>
    refine ⟨_, rfl, ?_⟩
    rw [ccMillerNoDenomProjLoop, fqMul_eq, fqMul_eq]
    exact scaled.mul (projDoTangent_differs projects Qx Qy)
  | succ m ih =>
    obtain ⟨above, below⟩ := shiftRight_bounds odd bounded
    have next := shiftRight_eq_append r (m + 1)
    generalize r >>> (m + 1 + 1) = k at *
    have factor : DiffersByScalar (dMillerEvalfn nqr (projDoTangent .x .y a s) Qx Qy) _ :=
      projDoTangent_differs projects Qx Qy
    have tangent := scaled.mul factor
    have doubled : (Z.assign ((2 * k) • P)).Represents ((2 * k) • P) := Z.assign_represents _
    have projects₂ := projDouble_nsmul two odd order above (by omega) multiple projects doubled
    rw [ccMillerNoDenomAffineLoop, curveDouble_nsmul two Z multiple]
    generalize Z.assign ((2 * k) • P) = Z₂ at *
    cases bit : r.testBit (m + 1) with
    | false =>
      rw [bit, Bool.toNat_false, add_zero] at next
      rw [next] at ih
      simp only [ccMillerNoDenomProjLoop, bind, Except.bind, mpzTstbit, bit, Bool.false_eq_true,
        if_false, fqMul_eq, fqSquare_eq]
      exact ih (by omega) doubled projects₂ (tangent.mul tangent)
    | true =>
      rw [bit, Bool.toNat_true] at next
      rw [next] at ih
      have chord := tangent.mul (projDoLine_differs projects₂ p Qx Qy)
      have added : (Z₂.assign ((2 * k + 1) • P)).Represents ((2 * k + 1) • P) :=
        Z₂.assign_represents _
      have projects₃ :=
        projMixin_nsmul two odd order (by omega) below doubled projects₂ represents added
      simp only [ccMillerNoDenomProjLoop, bind, Except.bind, mpzTstbit, bit, if_true, fqMul_eq,
        fqSquare_eq, curveMul_nsmul two Z₂ doubled represents]
      exact ih (by omega) added projects₃ (chord.mul chord)

end Simulation

section Aliased

/-- In the run with both coordinates, from bit `m` down, the two coordinates are
equal whenever a line is computed. -/
def CoordsAgree (cca : F) (q : ℕ) (P : PointS F) : ℕ → ProjState F → Prop
  | 0, s => s.Z.x = s.Z.y
  | m + 1, s =>
      let doubled := projDouble .x .y cca s
      s.Z.x = s.Z.y ∧
        if mpzTstbit q (m + 1) then
          doubled.Z.x = doubled.Z.y ∧ CoordsAgree cca q P m (projMixin .x .y P doubled)
        else CoordsAgree cca q P m doubled

omit [DecidableEq F] in
theorem CoordsAgree.now {cca : F} {q : ℕ} {P : PointS F} {m : ℕ} {s : ProjState F}
    (agree : CoordsAgree cca q P m s) : s.Z.x = s.Z.y := by
  cases m with
  | zero => exact agree
  | succ m => exact agree.1

/-- The state of the run with one coordinate holds the second one there. -/
structure ProjState.Aliases (s t : ProjState F) : Prop where
  z : s.z = t.z
  z2 : s.z2 = t.z2
  coordinate : s.Z.x = t.Z.y

variable {cca : F} {s t : ProjState F}

omit [DecidableEq F] in
theorem projDouble_aliases (aliases : s.Aliases t) (agree : t.Z.x = t.Z.y) :
    (projDouble .x .x cca s).Aliases (projDouble .x .y cca t) := by
  constructor
  · simp only [projDouble, PointS.coord, aliases.z, aliases.coordinate]
  · simp only [projDouble, PointS.coord, aliases.z, aliases.coordinate]
  · simp only [projDouble, PointS.coord, PointS.setCoord, aliases.z2, aliases.coordinate, agree]

omit [DecidableEq F] in
theorem projMixin_aliases (P : PointS F) (aliases : s.Aliases t) (agree : t.Z.x = t.Z.y) :
    (projMixin .x .x P s).Aliases (projMixin .x .y P t) := by
  constructor
  · simp only [projMixin, PointS.coord, aliases.z, aliases.z2, aliases.coordinate, agree]
  · simp only [projMixin, PointS.coord, aliases.z, aliases.z2, aliases.coordinate, agree]
  · simp only [projMixin, PointS.coord, PointS.setCoord, aliases.z, aliases.z2,
      aliases.coordinate, agree]

omit [DecidableEq F] in
theorem projDoTangent_aliases (aliases : s.Aliases t) (agree : t.Z.x = t.Z.y) :
    projDoTangent .x .x cca s = projDoTangent .x .y cca t := by
  simp only [projDoTangent, PointS.coord, aliases.z, aliases.z2, aliases.coordinate, agree]

omit [DecidableEq F] [FpMethods F] in
theorem projDoLine_aliases (P : PointS F) (aliases : s.Aliases t) (agree : t.Z.x = t.Z.y) :
    projDoLine .x .x P s = projDoLine .x .y P t := by
  simp only [projDoLine, PointS.coord, aliases.z, aliases.z2, aliases.coordinate, agree]

/-- While the coordinates agree, one pointer serves for both. -/
theorem ccMillerNoDenomProjLoop_aliases (q : ℕ) (P : PointS F) (Qx Qy : Polymod poly) (m : ℕ)
    (aliases : s.Aliases t) (agree : CoordsAgree cca q P m t) (v : DGt poly nqr) :
    ccMillerNoDenomProjLoop .x .x cca q P Qx Qy m s v =
      ccMillerNoDenomProjLoop .x .y cca q P Qx Qy m t v := by
  induction m generalizing s t v with
  | zero => rw [ccMillerNoDenomProjLoop, ccMillerNoDenomProjLoop, projDoTangent_aliases aliases agree]
  | succ m ih =>
    obtain ⟨equal, later⟩ := agree
    have doubled : (projDouble .x .x cca s).Aliases (projDouble .x .y cca t) :=
      projDouble_aliases aliases equal
    rw [ccMillerNoDenomProjLoop, ccMillerNoDenomProjLoop, projDoTangent_aliases aliases equal]
    cases bit : mpzTstbit q (m + 1) with
    | false =>
      rw [bit] at later
      exact ih doubled later _
    | true =>
      rw [bit] at later
      simp only [if_true, projDoLine_aliases P doubled later.1]
      exact ih (projMixin_aliases P doubled later.1) later.2 _

end Aliased

section Method

variable [irreducible : Fact (Irreducible (monicPoly poly))] (two : (2 : F) ≠ 0) {a b : F}
  {P : (short a b).Point} {r : ℕ} {p : PointS F}

include two in
/-- Where the coordinates agree the two methods differ by a scalar of `F_q`. -/
theorem ccMillerNoDenomProj_differs (odd : Odd r) (order : addOrderOf P = r) (finite : P ≠ 0)
    (represents : p.Represents P) (Qx Qy : Polymod poly)
    (agree : CoordsAgree a r p (mpzSizeinbase2 r - 2) ⟨p, 1, 1⟩) :
    ∃ f, ccMillerNoDenomAffine nqr a r p Qx Qy = .ok f ∧
      DiffersByScalar (ccMillerNoDenomProj nqr a r p Qx Qy) f := by
  have start := mpzSizeinbase2_sub_two (two_le_order odd order finite)
  have single : r >>> (mpzSizeinbase2 r - 2 + 1) = 1 := by
    rw [start]
    exact shiftRight_log2 odd.pos.ne'
  have copied : (curveSet curveInit p).Represents P := by
    rw [curveSet_eq curveInit represents]
    exact PointS.assign_represents _ _
  have same : curveSet curveInit p = p := by
    cases P with
    | zero => exact absurd rfl finite
    | some x y on =>
      rw [PointS.represents_some_iff] at copied represents
      rw [copied, represents]
  rw [same] at copied
  have run := ccMillerNoDenomProjLoop_simulates two odd order represents Qx Qy
    (mpzSizeinbase2 r - 2) start.le (Z := p) (by rwa [single, one_nsmul])
    (ProjState.projects_one p)
    (.refl (1 : DGt poly nqr))
  have aliases : ProjState.Aliases ⟨p, 1, 1⟩ ⟨p, 1, 1⟩ := ⟨rfl, rfl, agree.now⟩
  rw [ccMillerNoDenomAffine, ccMillerNoDenomProj, same,
    ccMillerNoDenomProjLoop_aliases r p Qx Qy _ aliases agree]
  exact run

end Method

section Power

variable {F : Type*} [Field F] [Fintype F] [DecidableEq F] [FpMethods F] {poly : Fin 3 → F}
  {nqr : F} [irreducible : Fact (Irreducible (monicPoly poly))] {a b : F}

/-- Where the coordinates that the projective loop reads are equal, the two values
of the option differ by a scalar of `F_q`, and the pairing does not see it. -/
theorem miller_methods_agree (two : (2 : F) ≠ 0) {r : ℕ} (odd : Odd r)
    (divides : r ∣ Fintype.card F * Fintype.card F - Fintype.card F + 1)
    {P : (short a b).Point} (order : addOrderOf P = r) (finite : P ≠ 0) {p : PointS F}
    (represents : p.Represents P) (agree : CoordsAgree a r p (mpzSizeinbase2 r - 2) ⟨p, 1, 1⟩)
    (method : MillerMethod) (Qx Qy : Polymod poly) :
    ∃ f g : DGt poly nqr,
      ccMillerNoDenomFn (dPairingOptionSet method "method" "miller-affine") nqr a r p Qx Qy = .ok f ∧
      ccMillerNoDenomFn (dPairingOptionSet method "method" "miller") nqr a r p Qx Qy = .ok g ∧
      (f ≠ 0 → DiffersByScalar g f ∧
        g ^ ((Fintype.card F ^ 6 - 1) / r) = f ^ ((Fintype.card F ^ 6 - 1) / r)) := by
  obtain ⟨f, returned, differs⟩ : ∃ f, ccMillerNoDenomAffine nqr a r p Qx Qy = .ok f ∧ _ :=
    ccMillerNoDenomProj_differs two odd order finite represents Qx Qy agree
  refine ⟨f, _, returned, rfl, fun _ => ⟨differs, ?_⟩⟩
  obtain ⟨c, nonzero, equal⟩ := differs
  rw [equal, mul_pow, ← map_pow, scalar_pow (unit_dvd_exponent divides) _
    ((map_ne_zero _).mpr nonzero), map_one, one_mul]

end Power

section Small

/-- The point `(2, 2)` of order three of `y^2 = x^3 + 4 x + 3`. -/
def diagonalP : (short (4 : ZMod 5) 3).Point :=
  .some 2 2 (short_nonsingular (by decide) (by decide) (by decide))

theorem diagonalP_represents : PointS.Represents ⟨false, 2, 2⟩ diagonalP := rfl

theorem addOrderOf_diagonalP : addOrderOf diagonalP = 3 := by
  exact addOrderOf_eq_of_curvePowMpz (by norm_num) (by decide) diagonalP_represents rfl
    (by decide)

/-- At a point with equal coordinates and `r = 3` the methods agree. -/
theorem miller_methods_agree_small :
    ∃ f g : DGt (![1, 1, 0] : Fin 3 → ZMod 5) 2,
      ccMillerNoDenomFn (dPairingOptionSet .millerAffine "method" "miller-affine") 2 4 3
        ⟨false, 2, 2⟩ ⟨![0, 1, 4]⟩ ⟨![3, 4, 1]⟩ = .ok f ∧
      ccMillerNoDenomFn (dPairingOptionSet .millerAffine "method" "miller") 2 4 3
        ⟨false, 2, 2⟩ ⟨![0, 1, 4]⟩ ⟨![3, 4, 1]⟩ = .ok g ∧
      (f ≠ 0 → DiffersByScalar g f ∧ g ^ ((Fintype.card (ZMod 5) ^ 6 - 1) / 3) =
        f ^ ((Fintype.card (ZMod 5) ^ 6 - 1) / 3)) :=
  miller_methods_agree (by decide) (by decide) (by decide) addOrderOf_diagonalP
    (fun zero => by cases zero) diagonalP_represents rfl .millerAffine _ _

/-- At the point `(0, 1)` of order seven they do not. -/
theorem miller_methods_differ_small :
    addOrderOf smallP = 7 ∧
    ¬∃ f g : DGt (![1, 1, 0] : Fin 3 → ZMod 5) 2,
      ccMillerNoDenomFn (dPairingOptionSet .millerAffine "method" "miller-affine") 2 2 7
        ⟨false, 0, 1⟩ ⟨![0, 1, 4]⟩ ⟨![3, 4, 1]⟩ = .ok f ∧
      ccMillerNoDenomFn (dPairingOptionSet .millerAffine "method" "miller") 2 2 7
        ⟨false, 0, 1⟩ ⟨![0, 1, 4]⟩ ⟨![3, 4, 1]⟩ = .ok g ∧
      (f ≠ 0 → DiffersByScalar g f ∧ g ^ ((Fintype.card (ZMod 5) ^ 6 - 1) / 7) =
        f ^ ((Fintype.card (ZMod 5) ^ 6 - 1) / 7)) := by
  refine ⟨addOrderOf_smallP, ?_⟩
  let x : Polymod (![1, 1, 0] : Fin 3 → ZMod 5) := ⟨![0, 1, 4]⟩
  let y : Polymod (![1, 1, 0] : Fin 3 → ZMod 5) := ⟨![3, 4, 1]⟩
  rintro ⟨f, g, affine, proj, agree⟩
  change ccMillerNoDenomFn .millerAffine 2 2 7 ⟨false, 0, 1⟩ x y = .ok f at affine
  change ccMillerNoDenomFn .miller 2 2 7 ⟨false, 0, 1⟩ x y = .ok g at proj
  have first : (ccMillerNoDenomFn .millerAffine 2 2 7 ⟨false, 0, 1⟩ x y).toOption.any
      (fun f => f.im.coeff 1 = 3) = true := by decide
  have second : (ccMillerNoDenomFn .miller 2 2 7 ⟨false, 0, 1⟩ x y).toOption.any
      (fun g => g.im.coeff 1 = 0) = true := by decide
  rw [affine] at first
  rw [proj] at second
  replace first : f.im.coeff 1 = 3 := of_decide_eq_true first
  replace second : g.im.coeff 1 = 0 := of_decide_eq_true second
  have nonzero : f ≠ 0 := by
    rintro rfl
    exact absurd first (by decide)
  obtain ⟨⟨c, unit, equal⟩, -⟩ := agree nonzero
  have im : g.im.coeff 1 = f.im.coeff 1 * c := by
    rw [equal, QuadraticAlgebra.im_mul, QuadraticAlgebra.algebraMap_re,
      QuadraticAlgebra.algebraMap_im, zero_mul, mul_zero, zero_mul, add_zero, add_zero,
      ← Polymod.polymodConstMul_eq]
    rfl
  rw [first, second] at im
  exact mul_ne_zero (by decide) unit im.symm

end Small

end Pbc.Ecc
