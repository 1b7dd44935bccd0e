import Pbc.Ecc.EMiller
import Pbc.Elliptic.Secant

/-!
# The offset of the type E Miller loop

The fraction of the loop gathers the lines at `Q + R` over the lines at `R`. Wherever it
is defined its symbol is that of the lines along the multiples, moved by a coboundary of
the line through `Q` and `R`, and at the order of the first point the offset drops out.
-/

open Pbc.Arith Pbc.Algebra Pbc.Elliptic WeierstrassCurve.Affine

namespace Pbc.Ecc

variable {F : Type*} [Field F]

/-- Numerator and denominator are nonzero. -/
structure EFraction.Defined (f : EFraction F) : Prop where
  numerator : f.v ≠ 0
  denominator : f.vd ≠ 0

namespace EFraction.Defined

variable {f g : EFraction F} {QR R : PointS F} {Ax : F}

theorem of_mulLine {line : PpCoeff F} (defined : (eMulLine QR R line f).Defined) :
    f.Defined ∧ eEvalfn line QR ≠ 0 ∧ eEvalfn line R ≠ 0 :=
  ⟨⟨left_ne_zero_of_mul defined.numerator, left_ne_zero_of_mul defined.denominator⟩,
    right_ne_zero_of_mul defined.numerator, right_ne_zero_of_mul defined.denominator⟩

theorem of_verticalBelow (defined : (eVerticalBelow QR R Ax f).Defined) :
    f.Defined ∧ R.x - Ax ≠ 0 ∧ QR.x - Ax ≠ 0 :=
  ⟨⟨left_ne_zero_of_mul defined.numerator, left_ne_zero_of_mul defined.denominator⟩,
    right_ne_zero_of_mul defined.numerator, right_ne_zero_of_mul defined.denominator⟩

theorem of_vertical (defined : (eVertical QR R Ax f).Defined) :
    f.Defined ∧ QR.x - Ax ≠ 0 ∧ R.x - Ax ≠ 0 :=
  ⟨⟨left_ne_zero_of_mul defined.numerator, left_ne_zero_of_mul defined.denominator⟩,
    right_ne_zero_of_mul defined.numerator, right_ne_zero_of_mul defined.denominator⟩

theorem of_end {sign0 : ℤ} (defined : (if sign0 > 0 then eVertical QR R Ax f else f).Defined) :
    f.Defined := by
  split at defined
  · exact defined.of_vertical.1
  · exact defined

theorem of_mul (defined : EFraction.Defined ⟨f.v * g.v, f.vd * g.vd⟩) : f.Defined ∧ g.Defined :=
  ⟨⟨left_ne_zero_of_mul defined.numerator, left_ne_zero_of_mul defined.denominator⟩,
    ⟨right_ne_zero_of_mul defined.numerator, right_ne_zero_of_mul defined.denominator⟩⟩

theorem of_squares [FpMethods F] (defined : (eSquares f).Defined) : f.Defined :=
  (of_mul (f := f) (g := f) ⟨FieldMethods.square_eq f.v ▸ defined.numerator,
    FieldMethods.square_eq f.vd ▸ defined.denominator⟩).1

end EFraction.Defined

section Values

variable {a b : F}

/-- The object that holds a finite point. -/
def PointS.ofFinite (Q : FinitePoint a b) : PointS F := ⟨false, Q.x, Q.y⟩

theorem PointS.ofFinite_represents (Q : FinitePoint a b) :
    (PointS.ofFinite Q).Represents Q.point := rfl

variable [DecidableEq F] (X : FinitePoint a b)

/-- The tangent is scaled by twice the ordinate. -/
theorem eEvalfn_doTangent [FpMethods F] {x y : F} (on : (short a b).Nonsingular x y)
    (axis : y ≠ -y) :
    eEvalfn (doTangent a ⟨false, x, y⟩) (.ofFinite X) =
      2 * y * X.eval (line (.some x y on) (.some x y on)) := by
  have double : 2 * y ≠ 0 := by
    intro zero
    exact axis (by linear_combination zero)
  have slope := div_mul_cancel₀ (3 * x ^ 2 + a) double
  rw [X.eval_line_some on on fun equal => axis (equal.2.trans (short_negY x y)),
    short_slope_self axis]
  simp only [eEvalfn, doTangent, PointS.ofFinite, FieldMethods.square_eq]
  linear_combination (X.x - x) * slope

/-- The chord is scaled by the difference of the abscissas. -/
theorem eEvalfn_computeAbcLine {x₁ y₁ x₂ y₂ : F} (on₁ : (short a b).Nonsingular x₁ y₁)
    (on₂ : (short a b).Nonsingular x₂ y₂) (distinct : x₁ ≠ x₂) :
    eEvalfn (computeAbcLine ⟨false, x₁, y₁⟩ ⟨false, x₂, y₂⟩) (.ofFinite X) =
      (x₂ - x₁) * X.eval (line (.some x₁ y₁ on₁) (.some x₂ y₂ on₂)) := by
  have apart : x₁ - x₂ ≠ 0 := sub_ne_zero.mpr distinct
  have slope := div_mul_cancel₀ (y₁ - y₂) apart
  rw [X.eval_line_some on₁ on₂ fun equal => distinct equal.1, short_slope_of_ne _ _ distinct]
  simp only [eEvalfn, computeAbcLine, PointS.ofFinite]
  linear_combination (x₁ - X.x) * slope

omit [DecidableEq F] in
/-- The line through a point and itself that `do_line` forms is zero. -/
theorem eEvalfn_computeAbcLine_self (Z A : PointS F) : eEvalfn (computeAbcLine Z Z) A = 0 := by
  simp only [eEvalfn, computeAbcLine]
  ring

end Values

section Reached

variable [DecidableEq F] {a b : F} {Q R T : FinitePoint a b} (through : Secant Q R T) {M : Type*}
  [CommGroup M] {r : ℕ} (symbol : ResidueSymbol F M r) {P : (short a b).Point}
  (avoids : ∀ k : ℤ, Q.eval (vertical (k • P)) ≠ 0)

/-- The quotient has the symbol of the chain up to a multiple. -/
def EFraction.Reaches (f : EFraction F) (n : ℕ) : Prop :=
  symbol.of (f.v / f.vd) = (through.cocycle symbol avoids).power 1 n

omit [DecidableEq F] in
/-- Verticals at the offset and at the shifted point do not vanish. -/
theorem regular_some {x y : F} {on : (short a b).Nonsingular x y} (offset : R.x - x ≠ 0)
    (shifted : T.x - x ≠ 0) : Secant.Regular R T (.some x y on) :=
  ⟨(R.eval_vertical_some on).symm ▸ offset, (T.eval_vertical_some on).symm ▸ shifted⟩

variable {f g : EFraction F} (definedF : f.Defined) (definedG : g.Defined) {s : F} (scale : s ≠ 0)

include definedF definedG scale in
/-- The fraction after two values are joined by a line and the vertical below it. -/
theorem symbol_join {j k : ℤ} (regularJ : Secant.Regular R T (j • P)) (regularK : Secant.Regular R T (k • P))
    (regularSum : Secant.Regular R T ((j + k) • P)) (meetsT : T.eval (line (j • P) (k • P)) ≠ 0)
    (meetsR : R.eval (line (j • P) (k • P)) ≠ 0) :
    symbol.of (f.v * g.v * (s * T.eval (line (j • P) (k • P))) * R.eval (vertical ((j + k) • P)) /
        (f.vd * g.vd * (s * R.eval (line (j • P) (k • P))) * T.eval (vertical ((j + k) • P)))) =
      symbol.of (f.v / f.vd) * symbol.of (g.v / g.vd) *
        (through.cocycle symbol avoids).value j k := by
  obtain ⟨f₁, f₂⟩ := definedF
  obtain ⟨g₁, g₂⟩ := definedG
  obtain ⟨offset, shifted⟩ := regularSum
  have chordT : T.chord (j • P) (k • P) ≠ 0 := by
    rw [FinitePoint.chord, ← add_zsmul]
    exact div_ne_zero meetsT shifted
  have chordR : R.chord (j • P) (k • P) ≠ 0 := by
    rw [FinitePoint.chord, ← add_zsmul]
    exact div_ne_zero meetsR offset
  rw [← through.of_chord_div_chord symbol avoids j k regularJ regularK ⟨offset, shifted⟩ meetsR,
    ← symbol.of_mul (div_ne_zero f₁ f₂) (div_ne_zero g₁ g₂),
    ← symbol.of_mul (mul_ne_zero (div_ne_zero f₁ f₂) (div_ne_zero g₁ g₂))
      (div_ne_zero chordT chordR), FinitePoint.chord, FinitePoint.chord, ← add_zsmul]
  congr 1
  field_simp

variable {m n : ℕ} (reachesF : f.Reaches through symbol avoids m)
  (reachesG : g.Reaches through symbol avoids n)

include definedF definedG scale reachesF reachesG

/-- Two values joined by the line through their multiples. -/
theorem reaches_join (regularM : Secant.Regular R T (m • P)) (regularN : Secant.Regular R T (n • P))
    (regularSum : Secant.Regular R T ((m + n) • P)) (meetsT : T.eval (line (m • P) (n • P)) ≠ 0)
    (meetsR : R.eval (line (m • P) (n • P)) ≠ 0) :
    EFraction.Reaches through symbol avoids
      ⟨f.v * g.v * (s * T.eval (line (m • P) (n • P))) * R.eval (vertical ((m + n) • P)),
        f.vd * g.vd * (s * R.eval (line (m • P) (n • P))) * T.eval (vertical ((m + n) • P))⟩
      (m + n) := by
  have sum : ((m : ℤ) + n) • P = (m + n) • P := by rw [← Nat.cast_add, natCast_zsmul]
  have join := symbol_join through symbol avoids definedF definedG scale (j := m) (k := n)
  simp only [natCast_zsmul, sum] at join
  rw [EFraction.Reaches, join regularM regularN regularSum meetsT meetsR, reachesF, reachesG,
    Cocycle.power_add, nsmul_one, nsmul_one]

/-- The second value, inverted and divided by its vertical, is joined by the line to the
opposite of its multiple. -/
theorem reaches_join_neg (ordered : n ≤ m) (regularM : Secant.Regular R T (m • P))
    (regularN : Secant.Regular R T (n • P)) (regularDiff : Secant.Regular R T ((m - n) • P))
    (meetsT : T.eval (line (m • P) (-(n • P))) ≠ 0)
    (meetsR : R.eval (line (m • P) (-(n • P))) ≠ 0) :
    EFraction.Reaches through symbol avoids
      ⟨f.v * (g.vd * R.eval (vertical (n • P))) * (s * T.eval (line (m • P) (-(n • P)))) *
          R.eval (vertical ((m - n) • P)),
        f.vd * (g.v * T.eval (vertical (n • P))) * (s * R.eval (line (m • P) (-(n • P)))) *
          T.eval (vertical ((m - n) • P))⟩
      (m - n) := by
  obtain ⟨g₁, g₂⟩ := definedG
  have regularNeg : Secant.Regular R T (-(n • P)) :=
    ⟨(R.eval_vertical_neg _).symm ▸ regularN.offset, (T.eval_vertical_neg _).symm ▸ regularN.shifted⟩
  have regularZero : Secant.Regular R T (0 : (short a b).Point) :=
    ⟨R.eval_vertical_zero.symm ▸ one_ne_zero, T.eval_vertical_zero.symm ▸ one_ne_zero⟩
  have chord (X : FinitePoint a b) : X.chord (n • P) (-(n • P)) = X.eval (vertical (n • P)) := by
    rw [FinitePoint.chord, X.eval_line_of_opposite (add_neg_cancel _), add_neg_cancel,
      FinitePoint.eval_vertical_zero, div_one]
  have diff : ((m : ℤ) + -(n : ℤ)) • P = (m - n) • P := by
    rw [← sub_eq_add_neg, ← Nat.cast_sub ordered, natCast_zsmul]
  have below := through.of_chord_div_chord symbol avoids n (-n)
  have join := symbol_join through symbol avoids (g := ⟨g.vd * R.eval (vertical (n • P)),
    g.v * T.eval (vertical (n • P))⟩) definedF ⟨mul_ne_zero g₂ regularN.offset,
    mul_ne_zero g₁ regularN.shifted⟩ scale (j := m) (k := -n)
  simp only [neg_zsmul, natCast_zsmul, diff, add_neg_cancel, zero_zsmul, chord] at join below
  have inverse : symbol.of (g.vd * R.eval (vertical (n • P)) /
      (g.v * T.eval (vertical (n • P)))) =
        ((through.cocycle symbol avoids).power 1 n *
          (through.cocycle symbol avoids).value n (-n))⁻¹ := by
    rw [← reachesG, ← below regularN regularNeg regularZero (by
      rw [R.eval_line_of_opposite (add_neg_cancel _)]
      exact regularN.offset), ← symbol.of_mul (div_ne_zero g₁ g₂)
        (div_ne_zero regularN.shifted regularN.offset), ← symbol.of_inv]
    congr 1
    rw [div_mul_div_comm, inv_div]
  have difference := (through.cocycle symbol avoids).power_sub_mul 1 ordered
  rw [nsmul_one, nsmul_one] at difference
  rw [EFraction.Reaches, join regularM regularNeg regularDiff meetsT meetsR, reachesF, inverse,
    mul_inv]
  rw [← eq_mul_inv_iff_mul_eq] at difference
  rw [difference]
  ac_rfl

end Reached

section Chords

variable [DecidableEq F] {a b : F} {Q R T : FinitePoint a b} (through : Secant Q R T) {M : Type*}
  [CommGroup M] {r : ℕ} (symbol : ResidueSymbol F M r) {P : (short a b).Point}
  (avoids : ∀ k : ℤ, Q.eval (vertical (k • P)) ≠ 0) {m n : ℕ} {f g : EFraction F}
  {x₁ y₁ x₂ y₂ x₃ y₃ : F} {on₁ : (short a b).Nonsingular x₁ y₁} {on₂ : (short a b).Nonsingular x₂ y₂}
  {on₃ : (short a b).Nonsingular x₃ y₃}

omit [DecidableEq F] in
/-- A line with a nonzero value joins distinct abscissas. -/
private theorem distinct_of_value [DecidableEq F]
    (sum : Point.some x₁ y₁ on₁ + .some x₂ y₂ on₂ = .some x₃ y₃ on₃) {A : PointS F}
    (value : eEvalfn (computeAbcLine ⟨false, x₁, y₁⟩ ⟨false, x₂, y₂⟩) A ≠ 0) : x₁ ≠ x₂ := by
  rintro rfl
  have same : y₁ = y₂ := Y_eq_of_Y_ne on₁.left on₂.left rfl fun opposite =>
    Point.some_ne_zero on₃ (sum.symm.trans (Point.add_of_Y_eq rfl opposite))
  subst same
  exact value (eEvalfn_computeAbcLine_self _ _)

variable (point₁ : m • P = .some x₁ y₁ on₁) (point₂ : n • P = .some x₂ y₂ on₂)
  (regular₁ : Secant.Regular R T (m • P)) (regular₂ : Secant.Regular R T (n • P))
  (reachesF : f.Reaches through symbol avoids m) (reachesG : g.Reaches through symbol avoids n)

include point₁ point₂ regular₁ regular₂ reachesF reachesG

/-- The chord between the two powers of a positive sign. -/
theorem reaches_computeAbcLine (point₃ : (m + n) • P = .some x₃ y₃ on₃)
    (defined : (eVerticalBelow (.ofFinite T) (.ofFinite R) x₃ (eMulLine (.ofFinite T) (.ofFinite R)
      (computeAbcLine ⟨false, x₁, y₁⟩ ⟨false, x₂, y₂⟩) ⟨f.v * g.v, f.vd * g.vd⟩)).Defined) :
    (eVerticalBelow (.ofFinite T) (.ofFinite R) x₃ (eMulLine (.ofFinite T) (.ofFinite R)
      (computeAbcLine ⟨false, x₁, y₁⟩ ⟨false, x₂, y₂⟩) ⟨f.v * g.v, f.vd * g.vd⟩)).Reaches through
        symbol avoids (m + n) := by
  obtain ⟨lined, offset, shifted⟩ := defined.of_verticalBelow
  obtain ⟨product, meetsT, meetsR⟩ := lined.of_mulLine
  obtain ⟨definedF, definedG⟩ := product.of_mul
  have sum : Point.some x₁ y₁ on₁ + .some x₂ y₂ on₂ = .some x₃ y₃ on₃ := by
    rw [← point₁, ← point₂, ← point₃, add_nsmul]
  have distinct := distinct_of_value sum meetsT
  have scale : x₂ - x₁ ≠ 0 := sub_ne_zero.mpr distinct.symm
  have regular₃ : Secant.Regular R T ((m + n) • P) := by
    rw [point₃]
    exact regular_some offset shifted
  rw [eEvalfn_computeAbcLine T on₁ on₂ distinct] at meetsT
  rw [eEvalfn_computeAbcLine R on₁ on₂ distinct] at meetsR
  have join := reaches_join through symbol avoids definedF definedG scale reachesF reachesG regular₁
    regular₂ regular₃
  rw [point₁, point₂, point₃, R.eval_vertical_some, T.eval_vertical_some] at join
  replace join := join (right_ne_zero_of_mul meetsT) (right_ne_zero_of_mul meetsR)
  rw [← eEvalfn_computeAbcLine T on₁ on₂ distinct, ← eEvalfn_computeAbcLine R on₁ on₂ distinct] at join
  exact join

/-- The chord between the two powers of a negative sign. -/
theorem reaches_computeAbcLine_neg (ordered : n ≤ m) (point₃ : (m - n) • P = .some x₃ y₃ on₃)
    (defined : (eVerticalBelow (.ofFinite T) (.ofFinite R) x₃ (eMulLine (.ofFinite T) (.ofFinite R)
      (computeAbcLine ⟨false, x₁, y₁⟩ ⟨false, x₂, -y₂⟩)
      ⟨f.v * (eVerticalBelow (.ofFinite T) (.ofFinite R) x₂ ⟨g.vd, g.v⟩).v,
        f.vd * (eVerticalBelow (.ofFinite T) (.ofFinite R) x₂ ⟨g.vd, g.v⟩).vd⟩)).Defined) :
    (eVerticalBelow (.ofFinite T) (.ofFinite R) x₃ (eMulLine (.ofFinite T) (.ofFinite R)
      (computeAbcLine ⟨false, x₁, y₁⟩ ⟨false, x₂, -y₂⟩)
      ⟨f.v * (eVerticalBelow (.ofFinite T) (.ofFinite R) x₂ ⟨g.vd, g.v⟩).v,
        f.vd * (eVerticalBelow (.ofFinite T) (.ofFinite R) x₂ ⟨g.vd, g.v⟩).vd⟩)).Reaches through
        symbol avoids (m - n) := by
  obtain ⟨lined, offset, shifted⟩ := defined.of_verticalBelow
  obtain ⟨product, meetsT, meetsR⟩ := lined.of_mulLine
  obtain ⟨definedF, inverted⟩ := product.of_mul
  obtain ⟨⟨denominator, numerator⟩, -, -⟩ := inverted.of_verticalBelow
  obtain ⟨on₂', negated⟩ := FinitePoint.neg_point on₂
  have sum : Point.some x₁ y₁ on₁ + .some x₂ (-y₂) on₂' = .some x₃ y₃ on₃ := by
    rw [← negated, ← point₁, ← point₂, ← point₃, ← sub_eq_add_neg, sub_eq_iff_eq_add, ← add_nsmul,
      Nat.sub_add_cancel ordered]
  have distinct := distinct_of_value sum meetsT
  have scale : x₂ - x₁ ≠ 0 := sub_ne_zero.mpr distinct.symm
  have regular₃ : Secant.Regular R T ((m - n) • P) := by
    rw [point₃]
    exact regular_some offset shifted
  rw [eEvalfn_computeAbcLine T on₁ on₂' distinct] at meetsT
  rw [eEvalfn_computeAbcLine R on₁ on₂' distinct] at meetsR
  have join := reaches_join_neg through symbol avoids definedF ⟨numerator, denominator⟩ scale reachesF
    reachesG ordered regular₁ regular₂ regular₃
  rw [point₁, point₂, point₃, negated, R.eval_vertical_some, T.eval_vertical_some,
    R.eval_vertical_some, T.eval_vertical_some] at join
  replace join := join (right_ne_zero_of_mul meetsT) (right_ne_zero_of_mul meetsR)
  rw [← eEvalfn_computeAbcLine T on₁ on₂' distinct, ← eEvalfn_computeAbcLine R on₁ on₂' distinct] at join
  exact join

end Chords

section Loop

variable [DecidableEq F] [FpMethods F] (two : (2 : F) ≠ 0) {a b : F} {Q R T : FinitePoint a b}
  (through : Secant Q R T) {M : Type*} [CommGroup M] {r : ℕ} (symbol : ResidueSymbol F M r)
  {P : (short a b).Point} (avoids : ∀ k : ℤ, Q.eval (vertical (k • P)) ≠ 0) (odd : Odd r)
  (proper : r ≠ 1) (order : addOrderOf P = r)

include two odd proper order

/-- `n` turns from the multiple by `2^i`, wherever the fraction is defined in the end. -/
theorem eMillerAffineLoop_reaches (n i : ℕ) {Z : PointS F} {f : EFraction F}
    (multiple : Z.Represents (2 ^ i • P)) :
    ∃ Z' f', eMillerAffineLoop a (.ofFinite T) (.ofFinite R) n Z f = .ok (Z', f') ∧
      Z'.Represents (2 ^ (i + n) • P) ∧ (f'.Defined → f.Defined ∧
        (Secant.Regular R T (2 ^ i • P) → f.Reaches through symbol avoids (2 ^ i) →
          Secant.Regular R T (2 ^ (i + n) • P) ∧ f'.Reaches through symbol avoids (2 ^ (i + n)))) := by
  induction n generalizing i Z f with
  | zero => exact ⟨Z, f, rfl, multiple, fun defined => ⟨defined, fun regular reaches =>
      ⟨regular, reaches⟩⟩⟩
  | succ n ih =>
    obtain ⟨x, y, on, point, axis⟩ :=
      exists_nsmul_eq_some_of_not_dvd odd order (not_dvd_two_pow odd proper i)
    obtain ⟨x₂, y₂, on₂, point₂, -⟩ :=
      exists_nsmul_eq_some_of_not_dvd odd order (not_dvd_two_pow odd proper (i + 1))
    have apart : y ≠ -y := fun equal => mul_ne_zero two axis (by linear_combination equal)
    have doubled := curveDouble_nsmul two Z multiple
    rw [← pow_succ', point₂, PointS.assign_some] at doubled
    rw [point, PointS.represents_some_iff] at multiple
    subst multiple
    have represents : (PointS.mk false x₂ y₂).Represents (2 ^ (i + 1) • P) := by
      rw [point₂]
      rfl
    obtain ⟨Z', f', run, last, whole⟩ := ih (i + 1) (f := eVerticalBelow (.ofFinite T) (.ofFinite R) x₂
      (eMulLine (.ofFinite T) (.ofFinite R) (doTangent a ⟨false, x, y⟩) (eSquares f))) represents
    rw [Nat.add_right_comm, Nat.add_assoc] at last whole
    refine ⟨Z', f', ?_, last, ?_⟩
    · simpa only [eMillerAffineLoop, doubled, bind, Except.bind] using run
    · intro defined
      obtain ⟨next, later⟩ := whole defined
      obtain ⟨lined, offset, shifted⟩ := next.of_verticalBelow
      obtain ⟨squared, meetsT, meetsR⟩ := lined.of_mulLine
      have before := squared.of_squares
      refine ⟨before, fun regular reaches => ?_⟩
      have regular₂ : Secant.Regular R T (2 ^ (i + 1) • P) := by
        rw [point₂]
        exact regular_some offset shifted
      apply later regular₂
      rw [eEvalfn_doTangent T on apart] at meetsT
      rw [eEvalfn_doTangent R on apart] at meetsR
      have join := reaches_join through symbol avoids before before (mul_ne_zero two axis) reaches
        reaches regular regular
      rw [← two_mul, ← pow_succ'] at join
      replace join := join regular₂
      rw [point, point₂, R.eval_vertical_some, T.eval_vertical_some] at join
      replace join := join (right_ne_zero_of_mul meetsT) (right_ne_zero_of_mul meetsR)
      rw [← eEvalfn_doTangent T on apart, ← eEvalfn_doTangent R on apart, ← FieldMethods.square_eq,
        ← FieldMethods.square_eq] at join
      exact join

end Loop

section Order

variable [DecidableEq F] {a b : F} {Q R T : FinitePoint a b} (through : Secant Q R T) {M : Type*}
  [CommGroup M] {r : ℕ} (symbol : ResidueSymbol F M r) {x y : F} {on : (short a b).Nonsingular x y}
  (avoids : ∀ k : ℤ, Q.eval (vertical (k • (.some x y on : (short a b).Point))) ≠ 0)
  (regular : Secant.Regular R T (.some x y on : (short a b).Point))

omit [DecidableEq F] in
private theorem regular_zero : Secant.Regular R T (0 : (short a b).Point) :=
  ⟨R.eval_vertical_zero.symm ▸ one_ne_zero, T.eval_vertical_zero.symm ▸ one_ne_zero⟩

include regular

/-- The vertical at the point is the line from its opposite. -/
theorem reaches_vertical {n : ℕ} (whole : (n + 1) • (.some x y on : (short a b).Point) = 0)
    {f : EFraction F} (defined : f.Defined) (reaches : f.Reaches through symbol avoids n) :
    (eVertical (.ofFinite T) (.ofFinite R) x f).Reaches through symbol avoids (n + 1) := by
  obtain ⟨numerator, denominator⟩ := defined
  have opposite : n • (.some x y on : (short a b).Point) = -.some x y on := by
    rw [succ_nsmul] at whole
    exact eq_neg_of_add_eq_zero_left whole
  have chord (X : FinitePoint a b) :
      X.chord (-.some x y on) (.some x y on) = X.eval (vertical (.some x y on)) := by
    rw [FinitePoint.chord, X.eval_line_of_opposite (neg_add_cancel _), neg_add_cancel,
      FinitePoint.eval_vertical_zero, div_one, FinitePoint.eval_vertical_neg]
  have step := through.of_chord_div_chord symbol avoids n 1
  rw [← Nat.cast_one (R := ℤ), ← Nat.cast_add, natCast_zsmul, natCast_zsmul, natCast_zsmul, one_nsmul,
    whole, opposite, chord, chord] at step
  replace step := step
    ⟨(R.eval_vertical_neg _).symm ▸ regular.offset, (T.eval_vertical_neg _).symm ▸ regular.shifted⟩
    regular regular_zero (by
      rw [R.eval_line_of_opposite (neg_add_cancel _), R.eval_vertical_neg]
      exact regular.offset)
  rw [EFraction.Reaches, Cocycle.power_succ, nsmul_one, ← reaches, ← Nat.cast_one (R := ℤ), ← step,
    ← symbol.of_mul (div_ne_zero numerator denominator)
      (div_ne_zero regular.shifted regular.offset), div_mul_div_comm, FinitePoint.eval_vertical_some,
    FinitePoint.eval_vertical_some]
  rfl

/-- One step beyond the order changes nothing. -/
theorem reaches_beyond {n : ℕ} (whole : n • (.some x y on : (short a b).Point) = 0)
    {f : EFraction F} (reaches : f.Reaches through symbol avoids (n + 1)) :
    f.Reaches through symbol avoids n := by
  have chord (X : FinitePoint a b) (away : X.eval (vertical (.some x y on)) ≠ 0) :
      X.chord 0 (.some x y on) = 1 := by
    rw [FinitePoint.chord, line_zero_left, zero_add, div_self away]
  have step := through.of_chord_div_chord symbol avoids n 1
  rw [← Nat.cast_one (R := ℤ), ← Nat.cast_add, natCast_zsmul, natCast_zsmul, natCast_zsmul, one_nsmul,
    succ_nsmul, whole, zero_add, chord T regular.shifted, chord R regular.offset, div_one,
    symbol.of_one] at step
  replace step := step regular_zero regular regular (by
    rw [line_zero_left]
    exact regular.offset)
  rw [EFraction.Reaches, Cocycle.power_succ, nsmul_one, ← Nat.cast_one (R := ℤ), ← step, mul_one] at reaches
  exact reaches

omit regular in
/-- One step before or beyond the order the multiple is the point or its opposite. -/
theorem exists_nsmul_eq_of_index (whole : r • (.some x y on : (short a b).Point) = 0) {n : ℕ}
    {sign0 : ℤ} (unit0 : sign0 = 1 ∨ sign0 = -1) (index : (r : ℤ) = n + sign0) :
    ∃ y₃ on₃, n • (.some x y on : (short a b).Point) = .some x y₃ on₃ := by
  rcases unit0 with rfl | rfl
  · obtain ⟨on', negated⟩ := FinitePoint.neg_point on
    refine ⟨-y, on', ?_⟩
    rw [show r = n + 1 by omega, succ_nsmul] at whole
    rw [← negated, eq_neg_of_add_eq_zero_left whole]
  · refine ⟨y, on, ?_⟩
    rw [show n = r + 1 by omega, succ_nsmul, whole, zero_add]

omit regular in
/-- The end of the run, from the value one step before or beyond the order. -/
theorem eMillerEnd_symbol (whole : r • (.some x y on : (short a b).Point) = 0) {n : ℕ} {sign0 : ℤ}
    (unit0 : sign0 = 1 ∨ sign0 = -1) (index : (r : ℤ) = n + sign0) {f : EFraction F}
    (reaches : (eVerticalBelow (.ofFinite T) (.ofFinite R) x f).Defined →
      Secant.Regular R T (.some x y on : (short a b).Point) →
      (eVerticalBelow (.ofFinite T) (.ofFinite R) x f).Reaches through symbol avoids n)
    (defined : (if sign0 > 0 then eVertical (.ofFinite T) (.ofFinite R) x
        (eVerticalBelow (.ofFinite T) (.ofFinite R) x f)
      else eVerticalBelow (.ofFinite T) (.ofFinite R) x f).Defined) :
    EFraction.Reaches through symbol avoids (if sign0 > 0 then eVertical (.ofFinite T) (.ofFinite R) x
        (eVerticalBelow (.ofFinite T) (.ofFinite R) x f)
      else eVerticalBelow (.ofFinite T) (.ofFinite R) x f) r := by
  rcases unit0 with rfl | rfl
  · rw [if_pos one_pos] at defined ⊢
    obtain ⟨below, shifted, offset⟩ := defined.of_vertical
    have regular : Secant.Regular R T (.some x y on : (short a b).Point) :=
      regular_some offset shifted
    obtain rfl : r = n + 1 := by omega
    exact reaches_vertical through symbol avoids regular whole below (reaches below regular)
  · rw [if_neg (by decide)] at defined ⊢
    obtain ⟨-, offset, shifted⟩ := defined.of_verticalBelow
    have regular : Secant.Regular R T (.some x y on : (short a b).Point) :=
      regular_some offset shifted
    obtain rfl : n = r + 1 := by omega
    exact reaches_beyond through symbol avoids regular whole (reaches defined regular)

end Order

section Run

variable [DecidableEq F] [FpMethods F] (two : (2 : F) ≠ 0) (p : EPairingData F)
  {Q R T : FinitePoint p.a p.b} (through : Secant Q R T) {M : Type*} [CommGroup M] {r : ℕ}
  (symbol : ResidueSymbol F M r) {P : (short p.a p.b).Point}
  (avoids : ∀ k : ℤ, Q.eval (vertical (k • P)) ≠ 0) (large : 7 ≤ r) (order : addOrderOf P = r)
  (form : (r : ℤ) = 2 ^ p.exp2 + p.sign1 * 2 ^ p.exp1 + p.sign0)
  (unit1 : p.sign1 = 1 ∨ p.sign1 = -1) (unit0 : p.sign0 = 1 ∨ p.sign0 = -1) {in1 : PointS F}
  (represents : in1.Represents P)

omit [Field F] [DecidableEq F] [FpMethods F] in
private theorem kept_exponent {r exp1 exp2 : ℕ} {sign0 : ℤ} (large : 7 ≤ r)
    (unit0 : sign0 = 1 ∨ sign0 = -1) (form : (r : ℤ) = 2 ^ exp2 - 2 ^ exp1 + sign0) :
    exp1 < exp2 := by
  by_contra below
  have powers : 2 ^ exp2 ≤ 2 ^ exp1 := Nat.pow_le_pow_right two_pos (not_lt.mp below)
  have powers' : (2 : ℤ) ^ exp2 ≤ 2 ^ exp1 := by exact_mod_cast powers
  rcases unit0 with positive | negative
  · omega
  · omega

/-- The steps after the two loops. -/
private theorem eMillerAffineFraction_ok {in1 QR R Z₁ Z₂ Z₃ K : PointS F} {f₁ f₂ k : EFraction F}
    (run₁ : eMillerAffineLoop p.a QR R p.exp1 (curveSet curveInit in1) ⟨1, 1⟩ = .ok (Z₁, f₁))
    (run₂ : eMillerAffineLoop p.a QR R (p.exp2 - p.exp1) Z₁ f₁ = .ok (Z₂, f₂))
    (kept : (if p.sign1 < 0 then curveInvert curveInit Z₁ else curveSet curveInit Z₁) = K)
    (value : (if p.sign1 < 0 then eVerticalBelow QR R Z₁.x ⟨f₁.vd, f₁.v⟩ else f₁) = k)
    (sum : curveMul p.a Z₂ Z₂ K = .ok Z₃) :
    eMillerAffineFraction p in1 QR R = .ok (if p.sign0 > 0 then eVertical QR R in1.x
        (eVerticalBelow QR R Z₃.x (eMulLine QR R (computeAbcLine Z₂ K) ⟨f₂.v * k.v, f₂.vd * k.vd⟩))
      else eVerticalBelow QR R Z₃.x
        (eMulLine QR R (computeAbcLine Z₂ K) ⟨f₂.v * k.v, f₂.vd * k.vd⟩)) := by
  simp only [eMillerAffineFraction, run₁, run₂, kept, value, sum, bind, Except.bind]
  rfl

/-- What the two loops leave: two multiples of the point, with values that are reached wherever
the second is defined. -/
private structure LoopsEnd {x y : F} (on : (short p.a p.b).Nonsingular x y)
    (avoids : ∀ k : ℤ, Q.eval (vertical (k • (.some x y on : (short p.a p.b).Point))) ≠ 0)
    {x₁ y₁ x₂ y₂ : F} (on₁ : (short p.a p.b).Nonsingular x₁ y₁)
    (on₂ : (short p.a p.b).Nonsingular x₂ y₂) (f₁ f₂ : EFraction F) : Prop where
  run₁ : eMillerAffineLoop p.a (.ofFinite T) (.ofFinite R) p.exp1
    (curveSet curveInit ⟨false, x, y⟩) ⟨1, 1⟩ = .ok (⟨false, x₁, y₁⟩, f₁)
  run₂ : eMillerAffineLoop p.a (.ofFinite T) (.ofFinite R) (p.exp2 - p.exp1) ⟨false, x₁, y₁⟩ f₁ =
    .ok (⟨false, x₂, y₂⟩, f₂)
  point₁ : 2 ^ (0 + p.exp1) • (.some x y on : (short p.a p.b).Point) = .some x₁ y₁ on₁
  point₂ : 2 ^ (0 + p.exp1 + (p.exp2 - p.exp1)) • (.some x y on : (short p.a p.b).Point) =
    .some x₂ y₂ on₂
  powers : f₂.Defined → Secant.Regular R T (.some x y on : (short p.a p.b).Point) →
    (Secant.Regular R T (2 ^ (0 + p.exp1) • (.some x y on : (short p.a p.b).Point)) ∧
      f₁.Reaches through symbol avoids (2 ^ (0 + p.exp1))) ∧
    Secant.Regular R T
        (2 ^ (0 + p.exp1 + (p.exp2 - p.exp1)) • (.some x y on : (short p.a p.b).Point)) ∧
      f₂.Reaches through symbol avoids (2 ^ (0 + p.exp1 + (p.exp2 - p.exp1)))

section Ends

variable {p} {x y : F} {on : (short p.a p.b).Nonsingular x y}
  {avoids : ∀ k : ℤ, Q.eval (vertical (k • (.some x y on : (short p.a p.b).Point))) ≠ 0}

include two

variable (avoids) in
/-- The two loops return. -/
private theorem exists_loopsEnd (odd : Odd r) (proper : r ≠ 1)
    (order : addOrderOf (.some x y on : (short p.a p.b).Point) = r) :
    ∃ x₁ y₁ x₂ y₂, ∃ (on₁ : (short p.a p.b).Nonsingular x₁ y₁)
      (on₂ : (short p.a p.b).Nonsingular x₂ y₂), ∃ f₁ f₂,
        LoopsEnd p through symbol on avoids on₁ on₂ f₁ f₂ := by
  have start : (PointS.mk false x y).Represents (2 ^ 0 • (.some x y on : (short p.a p.b).Point)) := by
    rw [pow_zero, one_nsmul]
    rfl
  have initial : EFraction.Reaches through symbol avoids ⟨1, 1⟩ (2 ^ 0) := by
    rw [EFraction.Reaches, div_self one_ne_zero, symbol.of_one, pow_zero, Cocycle.power_one]
  obtain ⟨Z₁, f₁, run₁, multiple₁, whole₁⟩ := eMillerAffineLoop_reaches two through symbol avoids odd
    proper order p.exp1 0 (f := ⟨1, 1⟩) start
  obtain ⟨Z₂, f₂, run₂, multiple₂, whole₂⟩ := eMillerAffineLoop_reaches two through symbol avoids odd
    proper order (p.exp2 - p.exp1) (0 + p.exp1) (f := f₁) multiple₁
  obtain ⟨x₁, y₁, on₁, point₁, -⟩ :=
    exists_nsmul_eq_some_of_not_dvd odd order (not_dvd_two_pow odd proper (0 + p.exp1))
  obtain ⟨x₂, y₂, on₂, point₂, -⟩ := exists_nsmul_eq_some_of_not_dvd odd order
    (not_dvd_two_pow odd proper (0 + p.exp1 + (p.exp2 - p.exp1)))
  rw [point₁, PointS.represents_some_iff] at multiple₁
  rw [point₂, PointS.represents_some_iff] at multiple₂
  subst multiple₁ multiple₂
  refine ⟨x₁, y₁, x₂, y₂, on₁, on₂, f₁, f₂, run₁, run₂, point₁, point₂, ?_⟩
  intro defined regular
  obtain ⟨first, second⟩ := whole₂ defined
  have regular₀ : Secant.Regular R T (2 ^ 0 • (.some x y on : (short p.a p.b).Point)) := by
    rw [pow_zero, one_nsmul]
    exact regular
  have reached₁ := (whole₁ first).2 regular₀ initial
  exact ⟨reached₁, second reached₁.1 reached₁.2⟩

variable {x₁ y₁ x₂ y₂ : F} {on₁ : (short p.a p.b).Nonsingular x₁ y₁}
  {on₂ : (short p.a p.b).Nonsingular x₂ y₂} {f₁ f₂ : EFraction F}
  (loops : LoopsEnd p through symbol on avoids on₁ on₂ f₁ f₂)
  (whole : r • (.some x y on : (short p.a p.b).Point) = 0)

include loops whole unit0

/-- The sum of the powers. -/
private theorem eMillerAffineFraction_plus (plus : p.sign1 = 1)
    (form : (r : ℤ) = 2 ^ p.exp2 + p.sign1 * 2 ^ p.exp1 + p.sign0) :
    ∃ g, eMillerAffineFraction p ⟨false, x, y⟩ (.ofFinite T) (.ofFinite R) = .ok g ∧
      (g.Defined → g.Reaches through symbol avoids r) := by
  obtain ⟨run₁, run₂, point₁, point₂, powers⟩ := loops
  have kept : (if p.sign1 < 0 then curveInvert curveInit (PointS.mk false x₁ y₁)
      else curveSet curveInit (PointS.mk false x₁ y₁)) = ⟨false, x₁, y₁⟩ := by
    rw [plus, if_neg (by decide)]
    rfl
  have value : (if p.sign1 < 0 then eVerticalBelow (.ofFinite T) (.ofFinite R) x₁ ⟨f₁.vd, f₁.v⟩
      else f₁) = f₁ := by rw [plus, if_neg (by decide)]
  have sum := curveMul_ok two ⟨false, x₂, y₂⟩ (p := ⟨false, x₂, y₂⟩) (q := ⟨false, x₁, y₁⟩)
    (P := .some x₂ y₂ on₂) (Q := .some x₁ y₁ on₁) rfl rfl
  rcases le_or_gt p.exp1 p.exp2 with ordered | reversed
  · have total : 2 ^ (0 + p.exp1 + (p.exp2 - p.exp1)) + 2 ^ (0 + p.exp1) =
        2 ^ p.exp2 + 2 ^ p.exp1 := by rw [zero_add, Nat.add_sub_cancel' ordered]
    have index : (r : ℤ) = (2 ^ p.exp2 + 2 ^ p.exp1 : ℕ) + p.sign0 := by
      rw [form, plus, one_mul]
      push_cast
      ring
    obtain ⟨y₃, on₃, point₃⟩ := exists_nsmul_eq_of_index whole unit0 index
    rw [← total] at point₃ index
    rw [← point₁, ← point₂, ← add_nsmul, point₃, PointS.assign_some] at sum
    refine ⟨_, eMillerAffineFraction_ok p run₁ run₂ kept value sum, fun defined => ?_⟩
    refine eMillerEnd_symbol through symbol avoids whole unit0 index (fun below regular => ?_) defined
    have product := below.of_verticalBelow.1.of_mulLine.1.of_mul
    obtain ⟨reached₁, reached₂⟩ := powers product.1 regular
    exact reaches_computeAbcLine through symbol avoids point₂ point₁ reached₂.1 reached₁.1 reached₂.2
      reached₁.2 point₃ below
  · -- Both loops stop at one multiple, and the line through it and itself is zero.
    have still := run₂
    rw [Nat.sub_eq_zero_of_le reversed.le] at still
    obtain ⟨same, -⟩ := Prod.mk.inj (Except.ok.inj still)
    refine ⟨_, eMillerAffineFraction_ok p run₁ run₂ kept value sum, fun defined => ?_⟩
    have meets := defined.of_end.of_verticalBelow.1.of_mulLine.2.1
    rw [← same, eEvalfn_computeAbcLine_self] at meets
    exact absurd rfl meets

include large

/-- The difference of the powers. -/
private theorem eMillerAffineFraction_minus (minus : p.sign1 = -1)
    (form : (r : ℤ) = 2 ^ p.exp2 + p.sign1 * 2 ^ p.exp1 + p.sign0) :
    ∃ g, eMillerAffineFraction p ⟨false, x, y⟩ (.ofFinite T) (.ofFinite R) = .ok g ∧
      (g.Defined → g.Reaches through symbol avoids r) := by
  obtain ⟨run₁, run₂, point₁, point₂, powers⟩ := loops
  have form' : (r : ℤ) = 2 ^ p.exp2 - 2 ^ p.exp1 + p.sign0 := by
    rw [form, minus]
    ring
  have ordered := kept_exponent large unit0 form'
  have kept : (if p.sign1 < 0 then curveInvert curveInit (PointS.mk false x₁ y₁)
      else curveSet curveInit (PointS.mk false x₁ y₁)) = ⟨false, x₁, -y₁⟩ := by
    rw [minus, if_pos (by decide)]
    rfl
  have value : (if p.sign1 < 0 then eVerticalBelow (.ofFinite T) (.ofFinite R) x₁ ⟨f₁.vd, f₁.v⟩
      else f₁) = eVerticalBelow (.ofFinite T) (.ofFinite R) x₁ ⟨f₁.vd, f₁.v⟩ := by
    rw [minus, if_pos (by decide)]
  have sum := curveMul_ok two ⟨false, x₂, y₂⟩ (p := ⟨false, x₂, y₂⟩) (q := ⟨false, x₁, -y₁⟩)
    (P := .some x₂ y₂ on₂) (Q := .some x₁ (-y₁) (short_nonsingular_neg on₁)) rfl rfl
  have smaller : 2 ^ (0 + p.exp1) ≤ 2 ^ (0 + p.exp1 + (p.exp2 - p.exp1)) :=
    Nat.pow_le_pow_right two_pos (Nat.le_add_right _ _)
  have total : (2 ^ (0 + p.exp1 + (p.exp2 - p.exp1)) : ℤ) = 2 ^ p.exp2 := by
    rw [zero_add, Nat.add_sub_cancel' ordered.le]
  have index : (r : ℤ) =
      (2 ^ (0 + p.exp1 + (p.exp2 - p.exp1)) - 2 ^ (0 + p.exp1) : ℕ) + p.sign0 := by
    rw [form', Nat.cast_sub smaller]
    push_cast
    rw [total, zero_add]
  obtain ⟨y₃, on₃, point₃⟩ := exists_nsmul_eq_of_index whole unit0 index
  rw [← short_neg_some on₁, ← point₁, ← point₂, ← sub_nsmul _ smaller, point₃,
    PointS.assign_some] at sum
  refine ⟨_, eMillerAffineFraction_ok p run₁ run₂ kept value sum, fun defined => ?_⟩
  refine eMillerEnd_symbol through symbol avoids whole unit0 index (fun below regular => ?_) defined
  have product := below.of_verticalBelow.1.of_mulLine.1.of_mul
  obtain ⟨reached₁, reached₂⟩ := powers product.1 regular
  exact reaches_computeAbcLine_neg through symbol avoids point₂ point₁ reached₂.1 reached₁.1
    reached₂.2 reached₁.2 smaller point₃ below

end Ends

include through two large order form unit1 unit0 represents

/-- The fraction, wherever it is defined, has the symbol of the lines along the order. -/
theorem eMillerAffineFraction_symbol :
    ∃ g, eMillerAffineFraction p in1 (.ofFinite T) (.ofFinite R) = .ok g ∧ (g.Defined →
      symbol.of (g.v / g.vd) = (Q.cocycle symbol avoids).power 1 r) := by
  have odd := symbol.odd
  have single := exists_nsmul_eq_some odd order one_pos (by omega)
  obtain ⟨x, y, on, point, -⟩ := single
  rw [one_nsmul] at point
  subst point
  rw [PointS.represents_some_iff] at represents
  subst represents
  have whole := addOrderOf_nsmul_self order
  obtain ⟨x₁, y₁, x₂, y₂, on₁, on₂, f₁, f₂, loops⟩ :=
    exists_loopsEnd two through symbol avoids odd (by omega) order
  rw [← through.power_order symbol avoids whole]
  rcases unit1 with plus | minus
  · exact eMillerAffineFraction_plus two through symbol unit0 loops whole plus form
  · exact eMillerAffineFraction_minus two through symbol large unit0 loops whole minus form

end Run

end Pbc.Ecc
