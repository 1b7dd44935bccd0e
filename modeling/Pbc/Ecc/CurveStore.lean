import Pbc.Ecc.Curve

/-!
# Curve operations on objects

The routines of a curve take the objects they read and write by reference, so the
destination may be one of the operands. The definitions below write one field
after the other, as the source does. Whatever objects coincide, a routine assigns
the value of the group law to its destination and leaves the other objects alone.
-/

open Pbc.Arith Pbc.Elliptic WeierstrassCurve.Affine

namespace Pbc.Ecc

/-- The point objects of a program, by their addresses. -/
abbrev CurveStore (ι : Type) (K : Type*) := ι → PointS K

section Operations

variable {ι : Type} {K : Type*} [DecidableEq ι]

/-- A write of `inf_flag`. -/
def CurveStore.setFlag (s : CurveStore ι K) (r : ι) (flag : Bool) : CurveStore ι K :=
  Function.update s r { s r with infFlag := flag }

/-- A write of `x`. -/
def CurveStore.setX (s : CurveStore ι K) (r : ι) (x : K) : CurveStore ι K :=
  Function.update s r { s r with x := x }

/-- A write of `y`. -/
def CurveStore.setY (s : CurveStore ι K) (r : ι) (y : K) : CurveStore ι K :=
  Function.update s r { s r with y := y }

/-- `curve_set1` on objects. -/
def curveSet1At (s : CurveStore ι K) (x : ι) : CurveStore ι K := s.setFlag x true

variable [CommRing K]

/-- `curve_invert` on objects. -/
def curveInvertAt (s : CurveStore ι K) (c a : ι) : CurveStore ι K :=
  if (s a).infFlag then s.setFlag c true
  else
    let s := s.setFlag c false
    let s := s.setX c (s a).x
    s.setY c (-(s a).y)

/-- `curve_set` on objects. -/
def curveSetAt (s : CurveStore ι K) (c a : ι) : CurveStore ι K :=
  if (s a).infFlag then s.setFlag c true
  else
    let s := s.setFlag c false
    let s := s.setX c (s a).x
    s.setY c (s a).y

variable [FieldMethods K]

/-- `double_no_check` on objects. -/
def doubleNoCheckAt (s : CurveStore ι K) (r p : ι) (a : K) : Except Exit (CurveStore ι K) := do
  let lambda := FieldMethods.square (s p).x
  let lambda := 3 • lambda
  let lambda := lambda + a
  let e0 := FieldMethods.double (s p).y
  let e0 ← FieldMethods.invert e0
  let lambda := lambda * e0
  let e1 := FieldMethods.double (s p).x
  let e0 := FieldMethods.square lambda
  let e0 := e0 - e1
  let e1 := (s p).x - e0
  let e1 := e1 * lambda
  let e1 := e1 - (s p).y
  let s := s.setX r e0
  let s := s.setY r e1
  return s.setFlag r false

variable [DecidableEq K]

/-- `curve_double` on objects. -/
def curveDoubleAt (cca : K) (s : CurveStore ι K) (c a : ι) : Except Exit (CurveStore ι K) :=
  if (s a).infFlag then .ok (s.setFlag c true)
  else if (s a).y = 0 then .ok (s.setFlag c true)
  else doubleNoCheckAt s c a cca

/-- `curve_mul` on objects. -/
def curveMulAt (cca : K) (s : CurveStore ι K) (c a b : ι) : Except Exit (CurveStore ι K) :=
  if (s a).infFlag then .ok (curveSetAt s c b)
  else if (s b).infFlag then .ok (curveSetAt s c a)
  else if (s a).x = (s b).x then
    if (s a).y = (s b).y then
      if (s a).y = 0 then .ok (s.setFlag c true) else doubleNoCheckAt s c a cca
    else .ok (s.setFlag c true)
  else do
    let e0 := (s b).x - (s a).x
    let e0 ← FieldMethods.invert e0
    let lambda := (s b).y - (s a).y
    let lambda := lambda * e0
    let e0 := FieldMethods.square lambda
    let e0 := e0 - (s a).x
    let e0 := e0 - (s b).x
    let e1 := (s a).x - e0
    let e1 := e1 * lambda
    let e1 := e1 - (s a).y
    let s := s.setX c e0
    let s := s.setY c e1
    return s.setFlag c false

end Operations

section Writes

variable {ι : Type} {K : Type*} [DecidableEq ι]

/-- The three writes of a finite result. -/
theorem CurveStore.setXYFlag (s : CurveStore ι K) (r : ι) (x y : K) :
    ((s.setX r x).setY r y).setFlag r false = Function.update s r ⟨false, x, y⟩ := by
  simp only [CurveStore.setX, CurveStore.setY, CurveStore.setFlag, Function.update_idem,
    Function.update_self]

/-- The three writes of a finite result that is read from an object, perhaps the destination. -/
theorem CurveStore.setFlagXY (s : CurveStore ι K) (c a : ι) (f : K → K) :
    ((s.setFlag c false).setX c ((s.setFlag c false) a).x).setY c
        (f (((s.setFlag c false).setX c ((s.setFlag c false) a).x) a).y) =
      Function.update s c ⟨false, (s a).x, f (s a).y⟩ := by
  by_cases same : a = c
  · subst same
    simp only [CurveStore.setX, CurveStore.setY, CurveStore.setFlag, Function.update_idem,
      Function.update_self]
  · simp only [CurveStore.setX, CurveStore.setY, CurveStore.setFlag, Function.update_idem,
      Function.update_self, Function.update_of_ne same]

/-- Copying an object that may be the destination itself. -/
theorem curveSetAt_eq (s : CurveStore ι K) (c a : ι) :
    curveSetAt s c a = Function.update s c (curveSet (s c) (s a)) := by
  unfold curveSetAt curveSet
  split
  · rfl
  · exact s.setFlagXY c a id

variable [CommRing K]

theorem curveInvertAt_eq (s : CurveStore ι K) (c a : ι) :
    curveInvertAt s c a = Function.update s c (curveInvert (s c) (s a)) := by
  unfold curveInvertAt curveInvert
  split
  · rfl
  · exact s.setFlagXY c a Neg.neg

variable [FieldMethods K]

theorem doubleNoCheckAt_eq (s : CurveStore ι K) (r p : ι) (a : K) :
    doubleNoCheckAt s r p a = (doubleNoCheck (s p) a).map (Function.update s r) := by
  simp only [doubleNoCheckAt, doubleNoCheck, CurveStore.setXYFlag]
  cases FieldMethods.invert (FieldMethods.double (s p).y) <;> rfl

variable [DecidableEq K]

theorem curveDoubleAt_eq (cca : K) (s : CurveStore ι K) (c a : ι) :
    curveDoubleAt cca s c a = (curveDouble cca (s c) (s a)).map (Function.update s c) := by
  unfold curveDoubleAt curveDouble
  split
  · rfl
  · split
    · rfl
    · exact doubleNoCheckAt_eq s c a cca

theorem curveMulAt_eq (cca : K) (s : CurveStore ι K) (c a b : ι) :
    curveMulAt cca s c a b = (curveMul cca (s c) (s a) (s b)).map (Function.update s c) := by
  unfold curveMulAt curveMul
  split
  · exact congrArg Except.ok (curveSetAt_eq s c b)
  · split
    · exact congrArg Except.ok (curveSetAt_eq s c a)
    · split
      · split
        · split
          · rfl
          · exact doubleNoCheckAt_eq s c a cca
        · rfl
      · simp only [CurveStore.setXYFlag]
        cases FieldMethods.invert ((s b).x - (s a).x) <;> rfl

end Writes

section Values

variable {ι : Type} {K : Type*} [DecidableEq ι] [Field K] {a b : K}

/-- Every object holds the point that `v` gives it. -/
def CurveStore.Holds (s : CurveStore ι K) (v : ι → (short a b).Point) : Prop :=
  ∀ i, (s i).Represents (v i)

/-- An assignment changes the value of one object. -/
theorem CurveStore.Holds.assign {s : CurveStore ι K} {v : ι → (short a b).Point} (holds : s.Holds v)
    (c : ι) (P : (short a b).Point) :
    CurveStore.Holds (Function.update s c ((s c).assign P)) (Function.update v c P) := by
  intro i
  by_cases same : i = c
  · subst same
    rw [Function.update_self, Function.update_self]
    exact (s i).assign_represents P
  · rw [Function.update_of_ne same, Function.update_of_ne same]
    exact holds i

theorem CurveStore.Holds.set {s : CurveStore ι K} {v : ι → (short a b).Point} (holds : s.Holds v)
    (c i : ι) : (curveSetAt s c i).Holds (Function.update v c (v i)) := by
  rw [curveSetAt_eq, curveSet_eq (s c) (holds i)]
  exact holds.assign c _

theorem CurveStore.Holds.invert {s : CurveStore ι K} {v : ι → (short a b).Point}
    (holds : s.Holds v) (c i : ι) : (curveInvertAt s c i).Holds (Function.update v c (-v i)) := by
  rw [curveInvertAt_eq, curveInvert_eq (s c) (holds i)]
  exact holds.assign c _

theorem CurveStore.Holds.set1 {s : CurveStore ι K} {v : ι → (short a b).Point} (holds : s.Holds v)
    (c : ι) : (curveSet1At s c).Holds (Function.update v c 0) :=
  holds.assign c 0

variable [FieldMethods K] [InvertsNonzero K] [DecidableEq K] (two : (2 : K) ≠ 0)

include two

theorem CurveStore.Holds.double {s : CurveStore ι K} {v : ι → (short a b).Point}
    (holds : s.Holds v) (c i : ι) : ∃ s', curveDoubleAt a s c i = .ok s' ∧
      s'.Holds (Function.update v c (v i + v i)) := by
  rw [curveDoubleAt_eq, curveDouble_ok two (s c) (holds i)]
  exact ⟨_, rfl, holds.assign c _⟩

theorem CurveStore.Holds.mul {s : CurveStore ι K} {v : ι → (short a b).Point}
    (holds : s.Holds v) (c i j : ι) : ∃ s', curveMulAt a s c i j = .ok s' ∧
      s'.Holds (Function.update v c (v i + v j)) := by
  rw [curveMulAt_eq, curveMul_ok two (s c) (holds i) (holds j)]
  exact ⟨_, rfl, holds.assign c _⟩

omit [InvertsNonzero K] in
/-- On a curve without singular points the objects that pass `curve_is_valid_point`
are those that hold a point. -/
theorem curveIsValidPoint_iff (smooth : 4 * a ^ 3 + 27 * b ^ 2 ≠ 0) (p : PointS K) :
    curveIsValidPoint a b p = true ↔ ∃ P : (short a b).Point, p.Represents P := by
  obtain ⟨infFlag, x, y⟩ := p
  cases infFlag with
  | true => exact iff_of_true rfl ⟨0, rfl⟩
  | false =>
    have equation : curveIsValidPoint a b ⟨false, x, y⟩ = true ↔ (short a b).Equation x y := by
      rw [short_equation_iff, curveIsValidPoint, if_neg Bool.false_ne_true, decide_eq_true_iff,
        FieldMethods.square_eq, FieldMethods.square_eq, eq_comm]
      constructor
      · intro equal
        linear_combination equal
      · intro equal
        linear_combination equal
    rw [equation]
    constructor
    · intro on
      exact ⟨.some x y (short_nonsingular_of_smooth two smooth (short_equation_iff.mp on)), rfl⟩
    · rintro ⟨P, represents⟩
      cases P with
      | zero => exact absurd represents Bool.false_ne_true
      | some x' y' on =>
        rw [PointS.represents_some_iff, PointS.mk.injEq] at represents
        obtain ⟨-, rfl, rfl⟩ := represents
        exact on.1

omit [DecidableEq ι] in
/-- Products of three objects in either order, into any destinations. -/
theorem CurveStore.Holds.mul_assoc {s : CurveStore ι K} {v : ι → (short a b).Point}
    (holds : s.Holds v) (i j k : ι) (d e f g : PointS K) :
    ∃ ij jk left right, curveMul a d (s i) (s j) = .ok ij ∧ curveMul a e (s j) (s k) = .ok jk ∧
      curveMul a f ij (s k) = .ok left ∧ curveMul a g (s i) jk = .ok right ∧
      left.Represents (v i + v j + v k) ∧ right.Represents (v i + v j + v k) := by
  refine ⟨_, _, _, _, curveMul_ok two d (holds i) (holds j), curveMul_ok two e (holds j) (holds k),
    curveMul_ok two f (d.assign_represents _) (holds k),
    curveMul_ok two g (holds i) (e.assign_represents _), f.assign_represents _, ?_⟩
  rw [add_assoc]
  exact g.assign_represents _

omit [DecidableEq ι] in
/-- The order of two operands does not matter. -/
theorem CurveStore.Holds.mul_comm {s : CurveStore ι K} {v : ι → (short a b).Point}
    (holds : s.Holds v) (i j : ι) (d e : PointS K) :
    ∃ ij ji, curveMul a d (s i) (s j) = .ok ij ∧ curveMul a e (s j) (s i) = .ok ji ∧
      ij.Represents (v i + v j) ∧ ji.Represents (v i + v j) := by
  refine ⟨_, _, curveMul_ok two d (holds i) (holds j), curveMul_ok two e (holds j) (holds i),
    d.assign_represents _, ?_⟩
  rw [add_comm]
  exact e.assign_represents _

/-- On objects that hold on-curve points or `O` the routines compute in the group of
the curve, whichever objects coincide, and leave only such objects. -/
theorem curve_routines_group (smooth : 4 * a ^ 3 + 27 * b ^ 2 ≠ 0) (s : CurveStore ι K)
    (valid : ∀ i, curveIsValidPoint a b (s i) = true) :
    ∃ v : ι → (short a b).Point, s.Holds v ∧
      (∀ c i j, ∃ s', curveMulAt a s c i j = .ok s' ∧
        s'.Holds (Function.update v c (v i + v j)) ∧ ∀ k, curveIsValidPoint a b (s' k) = true) ∧
      (∀ c i, ∃ s', curveDoubleAt a s c i = .ok s' ∧
        s'.Holds (Function.update v c (v i + v i)) ∧ ∀ k, curveIsValidPoint a b (s' k) = true) ∧
      (∀ c i, (curveInvertAt s c i).Holds (Function.update v c (-v i)) ∧
        ∀ k, curveIsValidPoint a b (curveInvertAt s c i k) = true) ∧
      (∀ c i, (curveSetAt s c i).Holds (Function.update v c (v i)) ∧
        ∀ k, curveIsValidPoint a b (curveSetAt s c i k) = true) ∧
      (∀ i j k d e f g, ∃ ij jk left right, curveMul a d (s i) (s j) = .ok ij ∧
        curveMul a e (s j) (s k) = .ok jk ∧ curveMul a f ij (s k) = .ok left ∧
        curveMul a g (s i) jk = .ok right ∧ left.Represents (v i + v j + v k) ∧
        right.Represents (v i + v j + v k)) ∧
      ∀ i j d e, ∃ ij ji, curveMul a d (s i) (s j) = .ok ij ∧ curveMul a e (s j) (s i) = .ok ji ∧
        ij.Represents (v i + v j) ∧ ji.Represents (v i + v j) := by
  choose v holds using fun i => (curveIsValidPoint_iff two smooth (s i)).mp (valid i)
  have remains {s' : CurveStore ι K} {w : ι → (short a b).Point} (held : s'.Holds w) (k : ι) :
      curveIsValidPoint a b (s' k) = true :=
    (curveIsValidPoint_iff two smooth (s' k)).mpr ⟨w k, held k⟩
  refine ⟨v, holds, ?_, ?_, ?_, ?_, CurveStore.Holds.mul_assoc two holds,
    CurveStore.Holds.mul_comm two holds⟩
  · intro c i j
    obtain ⟨s', run, held⟩ := CurveStore.Holds.mul two holds c i j
    exact ⟨s', run, held, remains held⟩
  · intro c i
    obtain ⟨s', run, held⟩ := CurveStore.Holds.double two holds c i
    exact ⟨s', run, held, remains held⟩
  · intro c i
    have held := CurveStore.Holds.invert holds c i
    exact ⟨held, remains held⟩
  · intro c i
    have held := CurveStore.Holds.set holds c i
    exact ⟨held, remains held⟩

end Values

section Small

/-- Two finite points and `O` on `y^2 = x^3 + 2 x + 1` over `F_5`. -/
def smallStore : CurveStore (Fin 3) (ZMod 5) := ![⟨false, 0, 1⟩, ⟨false, 1, 2⟩, ⟨true, 3, 3⟩]

theorem curve_routines_group_small :
    ∃ v : Fin 3 → (short (2 : ZMod 5) 1).Point, smallStore.Holds v ∧
      ∀ c i j, ∃ s', curveMulAt 2 smallStore c i j = .ok s' ∧
        s'.Holds (Function.update v c (v i + v j)) ∧ ∀ k, curveIsValidPoint 2 1 (s' k) = true :=
  let ⟨v, holds, mul, _⟩ := curve_routines_group (by decide) (by decide) smallStore (by decide)
  ⟨v, holds, mul⟩

end Small

section Comparison

/-- The values of stored coordinates. -/
def PointS.map {R K : Type*} (value : R → K) (p : PointS R) : PointS K :=
  ⟨p.infFlag, value p.x, value p.y⟩

variable {ι : Type} [DecidableEq ι] {R K : Type*} [DecidableEq R] [Field K] {a b : K}

/-- `curve_cmp`, over coordinates that `element_cmp` compares as they are stored. -/
def curveCmpAt (s : CurveStore ι R) (a b : ι) : ℤ :=
  if a = b then 0
  else if (s a).infFlag then (s b).infFlag.toInt
  else if (s a).x ≠ (s b).x ∨ (s a).y ≠ (s b).y then 1 else 0

/-- With the first object finite the flag of the second is not read. -/
private theorem curveCmpAt_finite {s : CurveStore ι R} {i j : ι} (distinct : i ≠ j)
    (finite : (s i).infFlag = false) :
    curveCmpAt s i j = 0 ↔ (s i).x = (s j).x ∧ (s i).y = (s j).y := by
  rw [curveCmpAt, if_neg distinct, if_neg (by rw [finite]; exact Bool.false_ne_true)]
  by_cases same : (s i).x = (s j).x ∧ (s i).y = (s j).y
  · rw [if_neg (by rw [same.1, same.2]; simp)]
    exact iff_of_true rfl same
  · rw [if_pos (by simpa only [not_and_or] using same)]
    exact iff_of_false one_ne_zero same

/-- With the first object infinite the answer is the flag of the second. -/
private theorem curveCmpAt_infinite {s : CurveStore ι R} {i j : ι} (distinct : i ≠ j)
    (infinite : (s i).infFlag = true) : curveCmpAt s i j = 0 ↔ (s j).infFlag = false := by
  rw [curveCmpAt, if_neg distinct, if_pos infinite]
  cases (s j).infFlag with
  | true => decide
  | false => decide

/-- The two finite points of the small store. -/
private theorem smallPoint0_nonsingular : (short (2 : ZMod 5) 1).Nonsingular 0 1 :=
  short_nonsingular (by decide) (by decide) (by decide)

def smallPoint0 : (short (2 : ZMod 5) 1).Point := .some 0 1 smallPoint0_nonsingular

def smallPoint1 : (short (2 : ZMod 5) 1).Point :=
  .some 1 2 (short_nonsingular (by decide) (by decide) (by decide))

theorem smallPoint0_represents : ((smallStore 0).map id).Represents smallPoint0 := rfl

theorem smallPoint1_represents : ((smallStore 1).map id).Represents smallPoint1 := rfl

end Comparison

end Pbc.Ecc
