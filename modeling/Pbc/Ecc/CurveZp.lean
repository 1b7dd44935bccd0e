import Pbc.Arith.FastNaive
import Pbc.Arith.PowApart
import Pbc.Arith.Sign
import Pbc.Ecc.CurveBytes

/-!
# Curve operations on stored integers

The routines of a curve over the default implementation of `F_p` compare coordinates as they are
stored. On reduced coordinates they act as the group of the curve does. An abscissa may also be
the modulus itself, a zero that is found different from the zero of a computed point.
-/

open Pbc.Arith Pbc.Elliptic Pbc.Gmp WeierstrassCurve.Affine

namespace Pbc.Ecc

section Operations

variable (p : ℕ) (invert : ℤ → Except Exit ℤ)

/-- `double_no_check`. -/
def zpDoubleNoCheck (P : PointS ℤ) (a : ℤ) : Except Exit (PointS ℤ) := do
  let lambda := zpSquare p P.x
  let lambda := zpMulSi p lambda 3
  let lambda := zpAdd p lambda a
  let e0 := zpDouble p P.y
  let e0 ← invert e0
  let lambda := zpMul p lambda e0
  let e1 := zpDouble p P.x
  let e0 := zpSquare p lambda
  let e0 := zpSub p e0 e1
  let e1 := zpSub p P.x e0
  let e1 := zpMul p e1 lambda
  let e1 := zpSub p e1 P.y
  return ⟨false, e0, e1⟩

/-- `curve_double`. -/
def zpCurveDouble (cca : ℤ) (c P : PointS ℤ) : Except Exit (PointS ℤ) :=
  if P.infFlag then .ok { c with infFlag := true }
  else if zpIs0 P.y then .ok { c with infFlag := true }
  else zpDoubleNoCheck p invert P cca

/-- `curve_mul`. -/
def zpCurveMul (cca : ℤ) (c P Q : PointS ℤ) : Except Exit (PointS ℤ) :=
  if P.infFlag then .ok (curveSet c Q)
  else if Q.infFlag then .ok (curveSet c P)
  else if zpCmp P.x Q.x = 0 then
    if zpCmp P.y Q.y = 0 then
      if zpIs0 P.y then .ok { c with infFlag := true } else zpDoubleNoCheck p invert P cca
    else .ok { c with infFlag := true }
  else do
    let e0 := zpSub p Q.x P.x
    let e0 ← invert e0
    let lambda := zpSub p Q.y P.y
    let lambda := zpMul p lambda e0
    let e0 := zpSquare p lambda
    let e0 := zpSub p e0 P.x
    let e0 := zpSub p e0 Q.x
    let e1 := zpSub p P.x e0
    let e1 := zpMul p e1 lambda
    let e1 := zpSub p e1 P.y
    return ⟨false, e0, e1⟩

/-- The method table of a curve. -/
def zpCurveMethods (cca : ℤ) : ElementMethods (PointS ℤ) where
  init := curveInit
  set1 := curveSet1
  set := curveSet
  square := zpCurveDouble p invert cca
  mul := zpCurveMul p invert cca

/-- `element_mul_mpz` on a curve. -/
def zpCurveMulMpz (cca : ℤ) (x P : PointS ℤ) (n : ℕ) : Except Exit (PointS ℤ) :=
  genericPowMpz (zpCurveMethods p invert cca) x P n

end Operations

/-- The behaviours of `mpz_invert` that its documentation allows: without an inverse the value
is not specified. -/
def InvertsUnits (p : ℕ) (invert : ℤ → Except Exit ℤ) : Prop :=
  ∀ {a b}, mpzInvert p a = some b → invert a = .ok b

/-- The one that stops at a value that is not specified. -/
def zpInvertUnit (p : ℕ) (a : ℤ) : Except Exit ℤ :=
  match mpzInvert p a with
  | some b => .ok b
  | none => .error .divisionByZero

theorem zpInvertUnit_units (p : ℕ) : InvertsUnits p (zpInvertUnit p) := by
  intro a b inverted
  rw [zpInvertUnit, inverted]

/-- A finite object holds reduced coordinates. -/
def PointS.Reduced (p : ℕ) (e : PointS ℤ) : Prop :=
  e.infFlag = false → LeastResidue p e.x ∧ LeastResidue p e.y

/-- The abscissa of a finite object may be the modulus as well. -/
def PointS.Stored (p : ℕ) (e : PointS ℤ) : Prop :=
  e.infFlag = false → (0 ≤ e.x ∧ e.x ≤ p) ∧ LeastResidue p e.y

theorem PointS.Reduced.stored {p : ℕ} {e : PointS ℤ} (reduced : e.Reduced p) : e.Stored p := by
  intro finite
  obtain ⟨⟨lower, upper⟩, ordinate⟩ := reduced finite
  exact ⟨⟨lower, upper.le⟩, ordinate⟩

section Reduction

variable {p : ℕ} (positive : 0 < p)

include positive

theorem zpMul_reduced (a b : ℤ) : LeastResidue p (zpMul p a b) :=
  ⟨Int.emod_nonneg _ (by omega), Int.emod_lt_of_pos _ (by omega)⟩

theorem zpSquare_reduced (a : ℤ) : LeastResidue p (zpSquare p a) :=
  ⟨Int.emod_nonneg _ (by omega), Int.emod_lt_of_pos _ (by omega)⟩

omit positive in
theorem zpDouble_le {a : ℤ} (range : 0 ≤ a ∧ a ≤ p) : 0 ≤ zpDouble p a ∧ zpDouble p a ≤ p := by
  simp only [zpDouble]
  split <;> omega

end Reduction

section Values

variable {p : ℕ} [prime : Fact p.Prime] {invert : ℤ → Except Exit ℤ}

/-- Reduced integers are told apart by their residues. -/
theorem zpIs0_iff {a : ℤ} (reduced : LeastResidue p a) : zpIs0 a = true ↔ (a : ZMod p) = 0 := by
  rw [zpIs0, decide_eq_true_iff]
  constructor
  · intro zero
    rw [zero, Int.cast_zero]
  · intro zero
    obtain ⟨lower, upper⟩ := reduced
    exact eq_of_cast_eq ⟨lower, upper⟩ ⟨le_rfl, by omega⟩ (by rw [zero, Int.cast_zero])

/-- The tangent on integers is the one on their residues. -/
theorem zpDoubleNoCheck_cast (units : InvertsUnits p invert) (two : (2 : ZMod p) ≠ 0) {P : PointS ℤ}
    (abscissa : 0 ≤ P.x ∧ P.x ≤ p) (ordinate : LeastResidue p P.y) (nonzero : (P.y : ZMod p) ≠ 0)
    (cca : ℤ) : ∃ e, zpDoubleNoCheck p invert P cca = .ok e ∧ e.Reduced p ∧
      doubleNoCheck (P.map (Int.cast : ℤ → ZMod p)) cca = .ok (e.map Int.cast) := by
  have positive := prime.out.pos
  have unit : ((zpDouble p P.y : ℤ) : ZMod p) ≠ 0 := by
    rw [zpDouble_cast, ← two_mul]
    exact mul_ne_zero two nonzero
  obtain ⟨b, inverted, value⟩ := mpzInvert_cast unit
  refine ⟨_, by rw [zpDoubleNoCheck, units inverted]; rfl, ?_, ?_⟩
  · intro _
    refine ⟨zpSub_reduced (zpSquare_reduced positive _) (zpDouble_le abscissa), ?_⟩
    exact zpSub_reduced (zpMul_reduced positive _ _) ⟨ordinate.1, ordinate.2.le⟩
  · have double : (P.y : ZMod p) + P.y ≠ 0 := by rwa [← zpDouble_cast]
    rw [zpDouble_cast] at value
    simp only [doubleNoCheck, PointS.map, FieldMethods.square_eq, FieldMethods.double_eq,
      InvertsNonzero.invert_ok double]
    change Except.ok _ = Except.ok _
    simp only [zpSub_cast, zpSquare_cast, zpMul_cast, zpAdd_cast, zpMulSi_cast, zpDouble_cast,
      value]
    congr 2
    · simp only [nsmul_eq_mul]
      push_cast
      ring
    · simp only [nsmul_eq_mul]
      push_cast
      ring

/-- The chord on integers is the one on their residues. -/
theorem zpCurveMul_chord (units : InvertsUnits p invert) {P Q : PointS ℤ} (storedP : P.Stored p)
    (storedQ : Q.Stored p) (finiteP : P.infFlag = false) (finiteQ : Q.infFlag = false)
    (apart : (P.x : ZMod p) ≠ Q.x) (cca : ℤ) (c : PointS ℤ) :
    ∃ e, zpCurveMul p invert cca c P Q = .ok e ∧ e.Reduced p ∧
      curveMul (cca : ZMod p) (c.map Int.cast) (P.map Int.cast) (Q.map Int.cast) =
        .ok (e.map Int.cast) := by
  have positive := prime.out.pos
  obtain ⟨abscissa, ordinate⟩ := storedP finiteP
  obtain ⟨abscissa', -⟩ := storedQ finiteQ
  have distinct : ¬zpCmp P.x Q.x = 0 := by
    rw [zpCmp_eq_zero]
    intro same
    exact apart (congrArg Int.cast same)
  have difference : (Q.x : ZMod p) - P.x ≠ 0 := sub_ne_zero.mpr (Ne.symm apart)
  have unit : ((zpSub p Q.x P.x : ℤ) : ZMod p) ≠ 0 := by rwa [zpSub_cast]
  obtain ⟨b, inverted, value⟩ := mpzInvert_cast unit
  have first : ¬P.infFlag = true := by rw [finiteP]; exact Bool.false_ne_true
  have second : ¬Q.infFlag = true := by rw [finiteQ]; exact Bool.false_ne_true
  obtain ⟨lambda, slope⟩ : ∃ lambda, lambda = zpMul p (zpSub p Q.y P.y) b := ⟨_, rfl⟩
  obtain ⟨x, third⟩ : ∃ x, x = zpSub p (zpSub p (zpSquare p lambda) P.x) Q.x := ⟨_, rfl⟩
  refine ⟨⟨false, x, zpSub p (zpMul p (zpSub p P.x x) lambda) P.y⟩, ?_, ?_, ?_⟩
  · rw [zpCurveMul, if_neg first, if_neg second, if_neg distinct, third, slope]
    simp only [units inverted]
    rfl
  · intro _
    constructor
    · rw [third]
      exact zpSub_reduced (zpSub_reduced (zpSquare_reduced positive _) abscissa) abscissa'
    · exact zpSub_reduced (zpMul_reduced positive _ _) ⟨ordinate.1, ordinate.2.le⟩
  · have first' : ¬(P.map Int.cast : PointS (ZMod p)).infFlag = true := first
    have second' : ¬(Q.map Int.cast : PointS (ZMod p)).infFlag = true := second
    have apart' : ¬(P.map Int.cast : PointS (ZMod p)).x = (Q.map Int.cast).x := apart
    rw [zpSub_cast] at value
    rw [curveMul, if_neg first', if_neg second', if_neg apart']
    simp only [PointS.map, FieldMethods.square_eq, InvertsNonzero.invert_ok difference]
    change Except.ok _ = Except.ok _
    simp only [third, slope, zpSub_cast, zpSquare_cast, zpMul_cast, value]
    congr 2
    · ring
    · ring

omit prime in
theorem PointS.Reduced.set {e : PointS ℤ} (reduced : e.Reduced p) (c : PointS ℤ) :
    (curveSet c e).Reduced p := by
  intro finite
  rw [curveSet] at finite ⊢
  split at finite
  · cases finite
  · next flag =>
    rw [if_neg flag]
    exact reduced (Bool.eq_false_iff.mpr flag)

/-- A written object: reduced, with the value of a point. -/
def PointS.Written (p : ℕ) [Fact p.Prime] {a b : ZMod p} (e : PointS ℤ) (P : (short a b).Point) :
    Prop :=
  e.Reduced p ∧ (e.map Int.cast).Represents P

variable {a b : ℤ} (two : (2 : ZMod p) ≠ 0) (units : InvertsUnits p invert)

omit prime in
theorem map_curveSet {K : Type*} (value : ℤ → K) (c e : PointS ℤ) :
    (curveSet c e).map value = curveSet (c.map value) (e.map value) := by
  obtain ⟨infFlag, x, y⟩ := e
  cases infFlag with
  | true => rfl
  | false => rfl

omit prime in
/-- A run whose result on residues is a point leaves an object of that point. -/
private theorem map_represents {K : Type*} [Field K] {a b : K} {value : ℤ → K}
    {R : (short a b).Point} {c : PointS K} {e : PointS ℤ} {run : Except Exit (PointS K)}
    (cast : run = .ok (e.map value)) (result : run = .ok (c.assign R)) :
    (e.map value).Represents R := by
  rw [Except.ok.inj (cast.symm.trans result)]
  exact c.assign_represents R

include two units

/-- `curve_double`, also of an object with the modulus as abscissa. -/
theorem zpCurveDouble_stored (c : PointS ℤ) {e : PointS ℤ} (stored : e.Stored p)
    {P : (short (a : ZMod p) b).Point} (represents : (e.map Int.cast).Represents P) :
    ∃ d, zpCurveDouble p invert a c e = .ok d ∧ d.Written p (P + P) := by
  have value := curveDouble_ok two (c.map Int.cast) represents
  have infinite (run : curveDouble (a : ZMod p) (c.map Int.cast) (e.map Int.cast) =
      .ok { (c.map Int.cast : PointS (ZMod p)) with infFlag := true }) :
      PointS.Written p { c with infFlag := true } (P + P) :=
    ⟨fun finite => absurd finite.symm Bool.false_ne_true, map_represents run value⟩
  by_cases flag : e.infFlag = true
  · exact ⟨_, if_pos flag, infinite (if_pos flag)⟩
  · obtain ⟨abscissa, ordinate⟩ := stored (Bool.eq_false_iff.mpr flag)
    by_cases zero : (e.y : ZMod p) = 0
    · refine ⟨_, ?_, infinite ?_⟩
      · rw [zpCurveDouble, if_neg flag, if_pos ((zpIs0_iff ordinate).mpr zero)]
      · exact (if_neg flag).trans (if_pos zero)
    · obtain ⟨d, run, reduced, cast⟩ := zpDoubleNoCheck_cast units two abscissa ordinate zero a
      refine ⟨d, ?_, reduced, map_represents ?_ value⟩
      · rw [zpCurveDouble, if_neg flag, if_neg (mt (zpIs0_iff ordinate).mp zero), run]
      · exact (if_neg flag).trans ((if_neg zero).trans cast)

/-- `curve_mul` of written objects. -/
theorem zpCurveMul_written (c : PointS ℤ) {d e : PointS ℤ} {P Q : (short (a : ZMod p) b).Point}
    (left : d.Written p P) (right : e.Written p Q) :
    ∃ r, zpCurveMul p invert a c d e = .ok r ∧ r.Written p (P + Q) := by
  obtain ⟨reduced, represents⟩ := left
  obtain ⟨reduced', represents'⟩ := right
  have value := curveMul_ok two (c.map Int.cast) represents represents'
  have infinite (run : curveMul (a : ZMod p) (c.map Int.cast) (d.map Int.cast) (e.map Int.cast) =
      .ok { (c.map Int.cast : PointS (ZMod p)) with infFlag := true }) :
      PointS.Written p { c with infFlag := true } (P + Q) :=
    ⟨fun finite => absurd finite.symm Bool.false_ne_true, map_represents run value⟩
  by_cases flag : d.infFlag = true
  · refine ⟨_, if_pos flag, reduced'.set c, map_represents ?_ value⟩
    rw [map_curveSet]
    exact if_pos flag
  · by_cases flag' : e.infFlag = true
    · refine ⟨_, (if_neg flag).trans (if_pos flag'), reduced.set c, map_represents ?_ value⟩
      rw [map_curveSet]
      exact (if_neg flag).trans (if_pos flag')
    · have finite := Bool.eq_false_iff.mpr flag
      have finite' := Bool.eq_false_iff.mpr flag'
      obtain ⟨abscissa, ordinate⟩ := reduced finite
      obtain ⟨abscissa', ordinate'⟩ := reduced' finite'
      by_cases vertical : (d.x : ZMod p) = e.x
      · have sameX : zpCmp d.x e.x = 0 :=
          (zpCmp_eq_zero _ _).mpr (eq_of_cast_eq abscissa abscissa' vertical)
        by_cases same : (d.y : ZMod p) = e.y
        · have sameY : zpCmp d.y e.y = 0 :=
            (zpCmp_eq_zero _ _).mpr (eq_of_cast_eq ordinate ordinate' same)
          by_cases zero : (d.y : ZMod p) = 0
          · refine ⟨_, ?_, infinite ?_⟩
            · rw [zpCurveMul, if_neg flag, if_neg flag', if_pos sameX, if_pos sameY,
                if_pos ((zpIs0_iff ordinate).mpr zero)]
            · exact (if_neg flag).trans ((if_neg flag').trans ((if_pos vertical).trans
                ((if_pos same).trans (if_pos zero))))
          · obtain ⟨r, run, result, cast⟩ := zpDoubleNoCheck_cast units two
              (reduced.stored finite).1 ordinate zero a
            refine ⟨r, ?_, result, map_represents ?_ value⟩
            · rw [zpCurveMul, if_neg flag, if_neg flag', if_pos sameX, if_pos sameY,
                if_neg (mt (zpIs0_iff ordinate).mp zero), run]
            · exact (if_neg flag).trans ((if_neg flag').trans ((if_pos vertical).trans
                ((if_pos same).trans ((if_neg zero).trans cast))))
        · have otherY : ¬zpCmp d.y e.y = 0 := by
            rw [zpCmp_eq_zero]
            intro equal
            exact same (congrArg Int.cast equal)
          refine ⟨_, ?_, infinite ?_⟩
          · rw [zpCurveMul, if_neg flag, if_neg flag', if_pos sameX, if_neg otherY]
          · exact (if_neg flag).trans ((if_neg flag').trans ((if_pos vertical).trans
              (if_neg same)))
      · obtain ⟨r, run, result, cast⟩ := zpCurveMul_chord units reduced.stored reduced'.stored
          finite finite' vertical a c
        exact ⟨r, run, result, map_represents cast value⟩

theorem zpCurveMethods_implements : (zpCurveMethods p invert a).Implements
    fun (e : PointS ℤ) (P : Multiplicative (short (a : ZMod p) b).Point) => e.Written p P.toAdd where
  set1 _ := ⟨fun finite => absurd finite.symm Bool.false_ne_true, rfl⟩
  square c {_ _} written := zpCurveDouble_stored two units c written.1.stored written.2
  mul c {_ _ _ _} left right := zpCurveMul_written two units c left right

end Values

section Modulus

variable {p : ℕ} [prime : Fact p.Prime] {a b : ℤ}

/-- Finitely many points have coordinates in a finite field. -/
theorem finite_short {F : Type*} [Field F] [Finite F] (a b : F) : Finite (short a b).Point := by
  let blank : PointS F := ⟨true, 0, 0⟩
  apply Finite.of_injective fun P : (short a b).Point =>
    ((blank.assign P).infFlag, (blank.assign P).x, (blank.assign P).y)
  intro P Q same
  cases P with
  | zero =>
    cases Q with
    | zero => rfl
    | some x y on => cases same
  | some x y on =>
    cases Q with
    | zero => cases same
    | some x' y' on' =>
      cases same
      rfl

/-- A written object is `O` or keeps a point with the residues of its coordinates. -/
theorem PointS.Written.finite {e : PointS ℤ} {P : (short (a : ZMod p) b).Point}
    (written : e.Written p P) (nonzero : P ≠ 0) : e.infFlag = false := by
  cases P with
  | zero => exact absurd rfl nonzero
  | some x y on => exact congrArg PointS.infFlag written.2

/-- Finite objects with one abscissa have one point or opposite ones. -/
theorem eq_or_eq_neg_of_abscissa {d e : PointS ℤ} {P Q : (short (a : ZMod p) b).Point}
    (left : (d.map Int.cast).Represents P) (right : (e.map Int.cast).Represents Q)
    (finite : d.infFlag = false) (finite' : e.infFlag = false) :
    (d.x : ZMod p) = e.x ↔ P = Q ∨ P = -Q := by
  cases P with
  | zero => exact absurd (finite.symm.trans left) Bool.false_ne_true
  | some x y on =>
    cases Q with
    | zero => exact absurd (finite'.symm.trans right) Bool.false_ne_true
    | some x' y' on' =>
      rw [PointS.represents_some_iff, PointS.map, PointS.mk.injEq] at left right
      rw [left.2.1, right.2.1, Point.neg_some]
      constructor
      · rintro rfl
        rcases Y_eq_of_X_eq on.1 on'.1 rfl with rfl | opposite
        · exact Or.inl rfl
        · right
          simp only [opposite]
      · rintro (same | opposite)
        · exact (Point.some.inj same).1
        · exact (Point.some.inj opposite).1

variable {s : PointS ℤ} (modulus : s.x = p) (finite : s.infFlag = false)
  (ordinate : LeastResidue p s.y)

include modulus finite ordinate

omit prime finite in
private theorem storedModulus : s.Stored p := by
  intro _
  refine ⟨?_, ordinate⟩
  omega

/-- The object with the modulus as abscissa may be met by other points. -/
theorem zpCurveMethods_apart (two : (2 : ZMod p) ≠ 0) {invert : ℤ → Except Exit ℤ}
    (units : InvertsUnits p invert) (nonzero : (s.y : ZMod p) ≠ 0)
    {P : (short (a : ZMod p) b).Point} (represents : (s.map Int.cast).Represents P) :
    (zpCurveMethods p invert a).ImplementsApart
      (fun (e : PointS ℤ) (P : Multiplicative (short (a : ZMod p) b).Point) =>
        e.Written p P.toAdd) s (Multiplicative.ofAdd P) where
  set1 _ := ⟨fun finite => absurd finite.symm Bool.false_ne_true, rfl⟩
  square c {_ _} written := zpCurveDouble_stored two units c written.1.stored written.2
  mul c {_ _ _ _} left right := zpCurveMul_written two units c left right
  copy c {d} written := by
    have infinite : d.infFlag = true := written.2
    refine (if_pos infinite).trans ?_
    rw [curveSet, if_neg (by rw [finite]; exact Bool.false_ne_true), ← finite]
  double c := by
    have flag : ¬s.infFlag = true := by rw [finite]; exact Bool.false_ne_true
    obtain ⟨r, run, result, cast⟩ :=
      zpDoubleNoCheck_cast units two (storedModulus modulus ordinate finite).1 ordinate
        nonzero a
    have value := curveMul_ok two (c.map Int.cast) represents represents
    refine ⟨r, ?_, result, map_represents ?_ value⟩
    · show zpCurveMul p invert a c s s = _
      rw [zpCurveMul, if_neg flag, if_neg flag, if_pos ((zpCmp_eq_zero _ _).mpr rfl),
        if_pos ((zpCmp_eq_zero _ _).mpr rfl), if_neg (mt (zpIs0_iff ordinate).mp nonzero), run]
    · exact (if_neg flag).trans ((if_neg flag).trans ((if_pos rfl).trans
        ((if_pos rfl).trans ((if_neg nonzero).trans cast))))
  next c {d m} written one same opposite := by
    have value := curveMul_ok two (c.map Int.cast) written.2 represents
    have finite' : d.infFlag = false := written.finite one
    have apart : (d.x : ZMod p) ≠ s.x := by
      rw [Ne, eq_or_eq_neg_of_abscissa written.2 represents finite' finite]
      rintro (equal | equal)
      · exact same equal
      · exact opposite equal
    obtain ⟨r, run, result, cast⟩ := zpCurveMul_chord units written.1.stored
      (storedModulus modulus ordinate) finite' finite apart a c
    exact ⟨r, run, result, map_represents cast value⟩

omit ordinate in
/-- The difference of the modulus and a stored zero has no inverse. -/
theorem zpCurveMethods_failsAt {P : (short (a : ZMod p) b).Point}
    (represents : (s.map Int.cast).Represents P) :
    (zpCurveMethods p (zpInvertUnit p) a).FailsAt
      (fun (e : PointS ℤ) (P : Multiplicative (short (a : ZMod p) b).Point) =>
        e.Written p P.toAdd) s (Multiplicative.ofAdd P) := by
  intro c d m written meets
  have nonzero : P ≠ 0 := by
    rintro rfl
    exact Bool.false_ne_true (finite.symm.trans represents)
  have other : m.toAdd ≠ 0 := by
    rcases meets with rfl | rfl
    · exact nonzero
    · exact neg_ne_zero.mpr nonzero
  have finite' : d.infFlag = false := written.finite other
  have vertical := (eq_or_eq_neg_of_abscissa written.2 represents finite' finite).mpr meets
  obtain ⟨⟨lower, upper⟩, -⟩ := written.1 finite'
  have zero : d.x = 0 := by
    refine eq_of_cast_eq (p := p) ⟨lower, upper⟩ ⟨le_rfl, by omega⟩ ?_
    rw [vertical, modulus, Int.cast_natCast, ZMod.natCast_self, Int.cast_zero]
  have flag : ¬s.infFlag = true := by rw [finite]; exact Bool.false_ne_true
  have flag' : ¬d.infFlag = true := by rw [finite']; exact Bool.false_ne_true
  have distinct : ¬zpCmp d.x s.x = 0 := by
    rw [zpCmp_eq_zero]
    omega
  have difference : zpSub p s.x d.x = p := by
    simp only [zpSub]
    split <;> omega
  have none : zpInvertUnit p p = .error .divisionByZero := by
    have common : ¬Int.gcd p p = 1 := by
      rw [Int.gcd_self, Int.natAbs_natCast]
      exact prime.out.one_lt.ne'
    rw [zpInvertUnit, mpzInvert, if_neg common]
  refine ⟨.divisionByZero, ?_⟩
  show zpCurveMul p (zpInvertUnit p) a c d s = _
  rw [zpCurveMul, if_neg flag', if_neg flag, if_neg distinct]
  simp only [difference, none]
  rfl

omit modulus ordinate in
/-- The methods on the multiples of a point of order two. -/
private theorem zpCurveMethods_two (invert : ℤ → Except Exit ℤ) (zero : s.y = 0)
    {P : (short (a : ZMod p) b).Point} (double : P + P = 0) : (zpCurveMethods p invert a).Implements
    fun (e : PointS ℤ) (Q : Multiplicative (short (a : ZMod p) b).Point) =>
      e.infFlag = true ∧ Q = 1 ∨ e = s ∧ Q = Multiplicative.ofAdd P where
  set1 _ := Or.inl ⟨rfl, rfl⟩
  square c {d m} value := by
    have is0 : zpIs0 s.y = true := decide_eq_true zero
    have flag : ¬s.infFlag = true := by rw [finite]; exact Bool.false_ne_true
    rcases value with ⟨infinite, rfl⟩ | ⟨rfl, rfl⟩
    · exact ⟨{ c with infFlag := true }, if_pos infinite, Or.inl ⟨rfl, one_mul 1⟩⟩
    · exact ⟨{ c with infFlag := true }, (if_neg flag).trans (if_pos is0),
        Or.inl ⟨rfl, congrArg Multiplicative.ofAdd double⟩⟩
  mul c {d e m n} left right := by
    have is0 : zpIs0 s.y = true := decide_eq_true zero
    have flag : ¬s.infFlag = true := by rw [finite]; exact Bool.false_ne_true
    have copy : curveSet c s = s := by
      rw [curveSet, if_neg flag, ← finite]
    rcases left with ⟨infinite, rfl⟩ | ⟨rfl, rfl⟩
    · rcases right with ⟨infinite', rfl⟩ | ⟨rfl, rfl⟩
      · refine ⟨_, if_pos infinite, Or.inl ⟨?_, one_mul 1⟩⟩
        rw [curveSet, if_pos infinite']
      · exact ⟨_, if_pos infinite, Or.inr ⟨copy, one_mul _⟩⟩
    · rcases right with ⟨infinite', rfl⟩ | ⟨rfl, rfl⟩
      · exact ⟨_, (if_neg flag).trans (if_pos infinite'), Or.inr ⟨copy, mul_one _⟩⟩
      · refine ⟨{ c with infFlag := true }, ?_, Or.inl ⟨rfl, congrArg Multiplicative.ofAdd double⟩⟩
        exact (if_neg flag).trans ((if_neg flag).trans ((if_pos ((zpCmp_eq_zero _ _).mpr rfl)).trans
          ((if_pos ((zpCmp_eq_zero _ _).mpr rfl)).trans (if_pos is0))))

end Modulus

section Multiples

variable {p : ℕ} [prime : Fact p.Prime] {a b : ℤ} {e : PointS ℤ} {P : (short (a : ZMod p) b).Point}

/-- The points of order two are those without an ordinate. -/
theorem add_self_eq_zero_iff (two : (2 : ZMod p) ≠ 0) (represents : (e.map Int.cast).Represents P)
    (finite : e.infFlag = false) : P + P = 0 ↔ (e.y : ZMod p) = 0 := by
  cases P with
  | zero => exact absurd (finite.symm.trans represents) Bool.false_ne_true
  | some x y on =>
    rw [PointS.represents_some_iff, PointS.map, PointS.mk.injEq] at represents
    rw [add_eq_zero_iff_eq_neg, Point.neg_some, Point.some.injEq, short_negY, represents.2.2,
      and_iff_right rfl, eq_neg_iff_add_eq_zero, ← two_mul, mul_eq_zero, or_iff_right two]

/-- Other finite points have a larger order. -/
theorem two_lt_addOrderOf_iff (two : (2 : ZMod p) ≠ 0) (represents : (e.map Int.cast).Represents P)
    (finite : e.infFlag = false) : 2 < addOrderOf P ↔ (e.y : ZMod p) ≠ 0 := by
  have points := finite_short (a : ZMod p) b
  have positive := addOrderOf_pos P
  have first : addOrderOf P ≠ 1 := by
    rw [Ne, AddMonoid.addOrderOf_eq_one_iff]
    rintro rfl
    exact Bool.false_ne_true (finite.symm.trans represents)
  rw [Ne, ← add_self_eq_zero_iff two represents finite, ← two_nsmul, ← addOrderOf_dvd_iff_nsmul_eq_zero]
  constructor
  · intro large divides
    exact absurd (Nat.le_of_dvd (by decide) divides) (not_le.mpr large)
  · intro not
    by_contra small
    have second : addOrderOf P = 2 := by omega
    exact not (Dvd.intro 1 (by omega))

/-- What the exponentiation assigns has the value of its result. -/
private theorem assigned_represents (c : PointS ℤ) {n : ℕ} {result : PointS ℤ}
    (value : (result.map Int.cast).Represents (n • P)) :
    ((if n = 0 then curveSet1 c else curveSet c result).map Int.cast).Represents (n • P) := by
  by_cases zero : n = 0
  · rw [if_pos zero, zero, zero_nsmul]
    rfl
  · rw [if_neg zero, map_curveSet, curveSet_eq _ value]
    exact PointS.assign_represents _ _

/-- The product with a natural number, of an object that does not meet its inverse. -/
theorem zpCurveMulMpz_ok (two : (2 : ZMod p) ≠ 0) {invert : ℤ → Except Exit ℤ}
    (units : InvertsUnits p invert) (c : PointS ℤ) (stored : e.Stored p)
    (represents : (e.map Int.cast).Represents P) {n : ℕ}
    (apart : e.infFlag = false → e.x = p → ¬PowMeetsInverse n (addOrderOf P)) :
    ∃ r, zpCurveMulMpz p invert a c e n = .ok r ∧ (r.map Int.cast).Represents (n • P) := by
  by_cases reduced : e.Reduced p
  · obtain ⟨result, value, run⟩ := genericPowMpz_ok (g := Multiplicative.ofAdd P)
      (zpCurveMethods_implements two units) c ⟨reduced, represents⟩ n
    exact ⟨_, run, assigned_represents c value.2⟩
  · have finite : e.infFlag = false := by
      by_contra flag
      exact reduced fun finite => absurd finite flag
    obtain ⟨⟨lower, upper⟩, ordinate⟩ := stored finite
    have modulus : e.x = p := by
      by_contra other
      refine reduced fun _ => ⟨⟨lower, ?_⟩, ordinate⟩
      omega
    by_cases zero : (e.y : ZMod p) = 0
    · have double := (add_self_eq_zero_iff two represents finite).mpr zero
      have is0 : e.y = 0 := of_decide_eq_true ((zpIs0_iff ordinate).mpr zero)
      obtain ⟨result, value, run⟩ := genericPowMpz_ok (g := Multiplicative.ofAdd P)
        (zpCurveMethods_two finite invert is0 double) c (Or.inr ⟨rfl, rfl⟩) n
      refine ⟨_, run, assigned_represents c ?_⟩
      rcases value with ⟨infinite, none⟩ | ⟨rfl, single⟩
      · have multiple : n • P = 0 := none
        rw [multiple]
        exact infinite
      · have multiple : n • P = P := single
        rwa [multiple]
    · have large := (two_lt_addOrderOf_iff two represents finite).mpr zero
      rw [← orderOf_ofAdd_eq_addOrderOf] at large
      have apart := apart finite modulus
      rw [← orderOf_ofAdd_eq_addOrderOf] at apart
      obtain ⟨result, value, run⟩ := genericPowMpz_apart
        (zpCurveMethods_apart modulus finite ordinate two units zero represents) large c apart
      refine ⟨_, run, assigned_represents c ?_⟩
      rcases value with written | ⟨rfl, single⟩
      · exact written.2
      · have multiple : n • P = P := single
        rwa [multiple]

/-- The product of an object that meets its inverse. -/
theorem zpCurveMulMpz_fails (two : (2 : ZMod p) ≠ 0) (c : PointS ℤ) (stored : e.Stored p)
    (represents : (e.map Int.cast).Represents P) (finite : e.infFlag = false) (modulus : e.x = p)
    {n : ℕ} (meets : PowMeetsInverse n (addOrderOf P)) :
    ∃ fault, zpCurveMulMpz p (zpInvertUnit p) a c e n = .error fault := by
  obtain ⟨-, ordinate⟩ := stored finite
  have nonzero := (two_lt_addOrderOf_iff two represents finite).mp meets.2.1
  rw [← orderOf_ofAdd_eq_addOrderOf] at meets
  exact genericPowMpz_fails (zpCurveMethods_apart modulus finite ordinate two
    (zpInvertUnit_units p) nonzero represents) (zpCurveMethods_failsAt modulus finite represents) c
    meets

end Multiples

end Pbc.Ecc
