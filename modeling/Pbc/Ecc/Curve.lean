import Mathlib.Tactic.FieldSimp
import Pbc.Arith.Pow
import Pbc.Elliptic.Short

/-!
# Point objects

A point object holds two coordinates and a flag for the point at infinity. The
routines write into a destination object; when the result is infinite they set
its flag only, so the coordinates it held before stay in place. `assign` states
this once, and every routine is shown to assign the value of the group law.
-/

open Pbc.Arith Pbc.Elliptic WeierstrassCurve.Affine

namespace Pbc.Ecc

/-- `struct point_s`. -/
structure PointS (K : Type*) where
  infFlag : Bool
  x : K
  y : K
  deriving DecidableEq, Repr

section Operations

variable {K : Type*} [CommRing K]

/-- `curve_init`. -/
def curveInit : PointS K := ⟨true, 0, 0⟩

/-- `curve_set1`; also `curve_set0`. -/
def curveSet1 (x : PointS K) : PointS K := { x with infFlag := true }

/-- `curve_invert`. -/
def curveInvert (c a : PointS K) : PointS K :=
  if a.infFlag then { c with infFlag := true } else ⟨false, a.x, -a.y⟩

/-- `curve_set`. -/
def curveSet (c a : PointS K) : PointS K :=
  if a.infFlag then { c with infFlag := true } else ⟨false, a.x, a.y⟩

variable [FieldMethods K]

/-- `double_no_check`. -/
def doubleNoCheck (p : PointS K) (a : K) : Except Exit (PointS K) := do
  let lambda := FieldMethods.square p.x
  let lambda := 3 • lambda
  let lambda := lambda + a
  let e0 := FieldMethods.double p.y
  let e0 ← FieldMethods.invert e0
  let lambda := lambda * e0
  let e1 := FieldMethods.double p.x
  let e0 := FieldMethods.square lambda
  let e0 := e0 - e1
  let e1 := p.x - e0
  let e1 := e1 * lambda
  let e1 := e1 - p.y
  return ⟨false, e0, e1⟩

variable [DecidableEq K]

/-- `curve_is_valid_point` on `y^2 = x^3 + a x + b`. -/
def curveIsValidPoint (a b : K) (e : PointS K) : Bool :=
  if e.infFlag then true
  else
    let t0 := FieldMethods.square e.x
    let t0 := t0 + a
    let t0 := t0 * e.x
    let t0 := t0 + b
    let t1 := FieldMethods.square e.y
    t0 = t1

/-- `curve_double`. -/
def curveDouble (cca : K) (c a : PointS K) : Except Exit (PointS K) :=
  if a.infFlag then .ok { c with infFlag := true }
  else if a.y = 0 then .ok { c with infFlag := true }
  else doubleNoCheck a cca

/-- `curve_mul`; also `curve_add`. -/
def curveMul (cca : K) (c a b : PointS K) : Except Exit (PointS K) :=
  if a.infFlag then .ok (curveSet c b)
  else if b.infFlag then .ok (curveSet c a)
  else if a.x = b.x then
    if a.y = b.y then
      if a.y = 0 then .ok { c with infFlag := true } else doubleNoCheck a cca
    else .ok { c with infFlag := true }
  else do
    let e0 := b.x - a.x
    let e0 ← FieldMethods.invert e0
    let lambda := b.y - a.y
    let lambda := lambda * e0
    let e0 := FieldMethods.square lambda
    let e0 := e0 - a.x
    let e0 := e0 - b.x
    let e1 := a.x - e0
    let e1 := e1 * lambda
    let e1 := e1 - a.y
    return ⟨false, e0, e1⟩

/-- The method table of a curve. -/
def curveMethods (cca : K) : ElementMethods (PointS K) where
  init := curveInit
  set1 := curveSet1
  set := curveSet
  square := curveDouble cca
  mul := curveMul cca

/-- `element_pow_mpz` on a curve; also `element_mul_mpz`. -/
def curvePowMpz (cca : K) (x a : PointS K) (n : ℕ) : Except Exit (PointS K) :=
  genericPowMpz (curveMethods cca) x a n

/-- `twist_curve`: the coefficients after the twist by `nqr`. -/
def twistCurveCoeffs (nqr a b : K) : K × K :=
  (a * nqr * nqr, b * nqr * nqr * nqr)

/-- `curve_from_bytes`, from the two coordinates that the bytes encode. -/
def curveFromBytes (a b x y : K) : PointS K :=
  let e : PointS K := ⟨false, x, y⟩
  if curveIsValidPoint a b e then e else curveSet1 e

end Operations

section Values

variable {K : Type*} [Field K] {a b : K}

/-- The value an object represents. -/
def PointS.Represents (p : PointS K) : (short a b).Point → Prop
  | .zero => p.infFlag = true
  | .some x y _ => p = ⟨false, x, y⟩

/-- Assigning a value to an object: an infinite value leaves the coordinates. -/
def PointS.assign (c : PointS K) : (short a b).Point → PointS K
  | .zero => { c with infFlag := true }
  | .some x y _ => ⟨false, x, y⟩

@[simp] theorem PointS.assign_zero (c : PointS K) :
    c.assign (0 : (short a b).Point) = { c with infFlag := true } := rfl

@[simp] theorem PointS.assign_some (c : PointS K) {x y : K} (on : (short a b).Nonsingular x y) :
    c.assign (.some x y on) = ⟨false, x, y⟩ := rfl

@[simp] theorem PointS.represents_zero_iff (p : PointS K) :
    p.Represents (0 : (short a b).Point) ↔ p.infFlag = true := Iff.rfl

@[simp] theorem PointS.represents_some_iff (p : PointS K) {x y : K}
    (on : (short a b).Nonsingular x y) :
    p.Represents (.some x y on) ↔ p = ⟨false, x, y⟩ := Iff.rfl

theorem PointS.assign_represents (c : PointS K) (P : (short a b).Point) :
    (c.assign P).Represents P := by
  cases P <;> rfl

/-- An object represents one value. -/
theorem PointS.Represents.unique {p : PointS K} {P Q : (short a b).Point} (left : p.Represents P)
    (right : p.Represents Q) : P = Q := by
  cases P with
  | zero =>
    cases Q with
    | zero => rfl
    | some x y on =>
      rw [PointS.represents_some_iff] at right
      subst right
      exact absurd left Bool.false_ne_true
  | some x y on =>
    rw [PointS.represents_some_iff] at left
    subst left
    cases Q with
    | zero => exact absurd right Bool.false_ne_true
    | some x' y' on' =>
      rw [PointS.represents_some_iff, PointS.mk.injEq] at right
      simp only [right]

theorem curveInit_represents : (curveInit : PointS K).Represents (0 : (short a b).Point) := rfl

theorem curveSet1_eq (c : PointS K) : curveSet1 c = c.assign (0 : (short a b).Point) := rfl

theorem curveSet_eq (c : PointS K) {p : PointS K} {P : (short a b).Point}
    (represents : p.Represents P) : curveSet c p = c.assign P := by
  cases P with
  | zero => exact if_pos represents
  | some x y on =>
    rw [PointS.represents_some_iff] at represents
    subst represents
    rfl

theorem curveInvert_eq (c : PointS K) {p : PointS K} {P : (short a b).Point}
    (represents : p.Represents P) : curveInvert c p = c.assign (-P) := by
  cases P with
  | zero => exact if_pos represents
  | some x y on =>
    rw [PointS.represents_some_iff] at represents
    subst represents
    rw [Point.neg_some, PointS.assign_some, short_negY]
    rfl

variable [FieldMethods K] [InvertsNonzero K]

theorem doubleNoCheck_ok (two : (2 : K) ≠ 0) {p : PointS K} (nonzero : p.y ≠ 0) (cca : K) :
    doubleNoCheck p cca = .ok ⟨false, ((3 * p.x ^ 2 + cca) / (2 * p.y)) ^ 2 - p.x - p.x,
      (3 * p.x ^ 2 + cca) / (2 * p.y) *
        (p.x - (((3 * p.x ^ 2 + cca) / (2 * p.y)) ^ 2 - p.x - p.x)) - p.y⟩ := by
  have double : p.y + p.y ≠ 0 := by
    rw [← two_mul]
    exact mul_ne_zero two nonzero
  simp only [doubleNoCheck, FieldMethods.square_eq, FieldMethods.double_eq,
    InvertsNonzero.invert_ok double]
  change Except.ok _ = Except.ok _
  have lambda : (3 • (p.x * p.x) + cca) * (p.y + p.y)⁻¹ = (3 * p.x ^ 2 + cca) / (2 * p.y) := by
    rw [div_eq_mul_inv, two_mul, nsmul_eq_mul, Nat.cast_ofNat, sq]
  rw [lambda]
  congr 2
  · ring
  · ring

variable [DecidableEq K]

theorem curveDouble_ok (two : (2 : K) ≠ 0) (c : PointS K) {p : PointS K} {P : (short a b).Point}
    (represents : p.Represents P) : curveDouble a c p = .ok (c.assign (P + P)) := by
  cases P with
  | zero => exact if_pos represents
  | some x y on =>
    rw [PointS.represents_some_iff] at represents
    subst represents
    rw [curveDouble, if_neg Bool.false_ne_true]
    by_cases axis : y = 0
    · rw [if_pos axis, Point.add_self_of_Y_eq (by rw [short_negY, axis, neg_zero])]
      rfl
    · have slope : y ≠ -y := by
        intro equal
        have doubled : 2 * y = 0 := by linear_combination equal
        exact mul_ne_zero two axis doubled
      rw [if_neg axis, doubleNoCheck_ok two axis, Point.add_some fun equal =>
        slope (equal.2.trans (short_negY x y)), PointS.assign_some, short_addY, short_addX,
        short_slope_self slope]

omit [FieldMethods K] [InvertsNonzero K] [DecidableEq K] in
/-- Two points with one abscissa are equal or opposite. -/
private theorem opposite_of_ne {x y₁ y₂ : K} (on₁ : (short a b).Nonsingular x y₁)
    (on₂ : (short a b).Nonsingular x y₂) (distinct : y₁ ≠ y₂) : y₁ = (short a b).negY x y₂ := by
  rw [short_negY, eq_neg_iff_add_eq_zero]
  have first := short_nonsingular_eq on₁
  have second := short_nonsingular_eq on₂
  have product : (y₁ - y₂) * (y₁ + y₂) = 0 := by linear_combination first - second
  exact (mul_eq_zero.mp product).resolve_left (sub_ne_zero.mpr distinct)

theorem curveMul_ok (two : (2 : K) ≠ 0) (c : PointS K) {p q : PointS K}
    {P Q : (short a b).Point} (representsP : p.Represents P) (representsQ : q.Represents Q) :
    curveMul a c p q = .ok (c.assign (P + Q)) := by
  cases P with
  | zero =>
    have infinite : p.infFlag = true := representsP
    rw [curveMul, if_pos infinite, curveSet_eq c representsQ]
    exact congrArg (fun R => Except.ok (c.assign R)) (zero_add Q).symm
  | some x₁ y₁ on₁ =>
    have finite := representsP
    rw [PointS.represents_some_iff] at finite
    cases Q with
    | zero =>
      have infinite : q.infFlag = true := representsQ
      rw [curveMul, if_neg (by rw [finite]; exact Bool.false_ne_true), if_pos infinite,
        curveSet_eq c representsP]
      exact congrArg (fun R => Except.ok (c.assign R)) (add_zero _).symm
    | some x₂ y₂ on₂ =>
      rw [PointS.represents_some_iff] at representsQ
      subst finite representsQ
      rw [curveMul, if_neg Bool.false_ne_true, if_neg Bool.false_ne_true]
      by_cases vertical : x₁ = x₂
      · subst vertical
        rw [if_pos rfl]
        by_cases same : y₁ = y₂
        · subst same
          rw [if_pos rfl, ← curveDouble_ok two c representsP, curveDouble,
            if_neg Bool.false_ne_true]
        · rw [if_neg same, Point.add_of_Y_eq rfl (opposite_of_ne on₁ on₂ same)]
          rfl
      · have apart : x₂ - x₁ ≠ 0 := sub_ne_zero.mpr (Ne.symm vertical)
        have lambda : (y₂ - y₁) * (x₂ - x₁)⁻¹ = (y₁ - y₂) / (x₁ - x₂) := by
          rw [← div_eq_mul_inv, ← neg_sub y₁, ← neg_sub x₁, neg_div_neg_eq]
        rw [if_neg vertical, Point.add_some fun equal => vertical equal.1, PointS.assign_some,
          short_addY, short_addX, short_slope_of_ne y₁ y₂ vertical]
        simp only [FieldMethods.square_eq, InvertsNonzero.invert_ok apart]
        change Except.ok _ = Except.ok _
        rw [lambda]
        congr 2
        · ring
        · ring

/-- Doubling a multiple doubles the count. -/
theorem curveDouble_nsmul (two : (2 : K) ≠ 0) (c : PointS K) {p : PointS K}
    {P : (short a b).Point} {k : ℕ} (represents : p.Represents (k • P)) :
    curveDouble a c p = .ok (c.assign ((2 * k) • P)) := by
  rw [curveDouble_ok two c represents, ← two_nsmul, ← mul_nsmul']

theorem curveMul_nsmul (two : (2 : K) ≠ 0) (c : PointS K) {p q : PointS K}
    {P : (short a b).Point} {k : ℕ} (multiple : p.Represents (k • P)) (single : q.Represents P) :
    curveMul a c p q = .ok (c.assign ((k + 1) • P)) := by
  rw [curveMul_ok two c multiple single, succ_nsmul]

theorem curveMethods_implements (two : (2 : K) ≠ 0) :
    (curveMethods a).Implements fun (p : PointS K) (P : Multiplicative (short a b).Point) =>
      p.Represents P.toAdd where
  set1 _ := rfl
  square c {_ P} represents :=
    ⟨_, curveDouble_ok two c represents, c.assign_represents (P.toAdd + P.toAdd)⟩
  mul c {_ _ P Q} left right :=
    ⟨_, curveMul_ok two c left right, c.assign_represents (P.toAdd + Q.toAdd)⟩

/-- The power assigns the multiple. -/
theorem curvePowMpz_ok (two : (2 : K) ≠ 0) (x : PointS K) {p : PointS K} {P : (short a b).Point}
    (represents : p.Represents P) (n : ℕ) :
    curvePowMpz a x p n = .ok (x.assign (n • P)) := by
  obtain ⟨result, value, power⟩ :=
    genericPowMpz_ok (g := Multiplicative.ofAdd P) (curveMethods_implements two) x represents n
  rw [curvePowMpz, power]
  split
  · next zero =>
      rw [zero, zero_nsmul]
      rfl
  · exact congrArg Except.ok (curveSet_eq x (P := n • P) value)

/-- A computed multiple that is infinite is zero. -/
theorem nsmul_eq_zero_of_curvePowMpz (two : (2 : K) ≠ 0) {p : PointS K} {P : (short a b).Point}
    (represents : p.Represents P) {n : ℕ}
    (infinite : (curvePowMpz a curveInit p n).toOption.any PointS.infFlag = true) : n • P = 0 := by
  rw [curvePowMpz_ok two curveInit represents] at infinite
  cases multiple : n • P with
  | zero => rfl
  | some x y on =>
    rw [multiple] at infinite
    exact absurd infinite Bool.false_ne_true

/-- A point whose computed multiple by a prime is infinite has that order. -/
theorem addOrderOf_eq_of_curvePowMpz {n : ℕ} (prime : n.Prime) (two : (2 : K) ≠ 0) {p : PointS K}
    {P : (short a b).Point} (represents : p.Represents P) (finite : p.infFlag = false)
    (infinite : (curvePowMpz a curveInit p n).toOption.any PointS.infFlag = true) :
    addOrderOf P = n := by
  have : Fact n.Prime := ⟨prime⟩
  refine addOrderOf_eq_prime (nsmul_eq_zero_of_curvePowMpz two represents infinite) ?_
  rintro rfl
  exact Bool.false_ne_true (finite.symm.trans represents)

end Values

section Fp

variable {F : Type*} [Field F] [DecidableEq F] [FpMethods F]

/-- Over `F_p` doubling always returns. -/
theorem curveDouble_returns (cca : F) (c a : PointS F) : ∃ d, curveDouble cca c a = .ok d := by
  unfold curveDouble
  split
  · exact ⟨_, rfl⟩
  · split
    · exact ⟨_, rfl⟩
    · exact ⟨_, rfl⟩

/-- Over `F_p` addition always returns. -/
theorem curveMul_returns (cca : F) (c a b : PointS F) : ∃ d, curveMul cca c a b = .ok d := by
  unfold curveMul
  split
  · exact ⟨_, rfl⟩
  · split
    · exact ⟨_, rfl⟩
    · split
      · split
        · split
          · exact ⟨_, rfl⟩
          · exact ⟨_, rfl⟩
        · exact ⟨_, rfl⟩
      · exact ⟨_, rfl⟩

end Fp

end Pbc.Ecc
