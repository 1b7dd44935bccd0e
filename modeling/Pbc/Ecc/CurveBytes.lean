import Pbc.Arith.Fp
import Pbc.Arith.NaiveFp
import Pbc.Ecc.CurveStore

/-!
# Points and bytes

The encodings of a point over the default implementation of `F_p`, on the integers
that the coordinates hold. The full encoding writes both coordinates and has no
form for the point at infinity; the short ones take a square root without a test.
-/

open Pbc.Arith Pbc.Elliptic Pbc.Gmp

namespace Pbc.Ecc

section Operations

variable (p : ℕ)

/-- The methods of the default implementation that `fp_tonelli` calls. -/
def zpTable : FpTable ℤ where
  mul := zpMul p
  invert := mpzInvert p
  powMpz := zpPowMpz p
  is1 := zpIs1

/-- `curve_is_valid_point` on stored coordinates. -/
def zpCurveIsValidPoint (a b : ℤ) (e : PointS ℤ) : Bool :=
  if e.infFlag then true
  else
    let t0 := zpSquare p e.x
    let t0 := zpAdd p t0 a
    let t0 := zpMul p t0 e.x
    let t0 := zpAdd p t0 b
    let t1 := zpSquare p e.y
    zpCmp t0 t1 = 0

/-- `curve_to_bytes`: the bytes and their number. -/
def zpCurveToBytes (e : PointS ℤ) : Option (List UInt8 × ℕ) := do
  let (front, len) ← zpToBytes p e.x
  let (back, more) ← zpToBytes p e.y
  return (front ++ back, len + more)

/-- `curve_from_bytes`: the point and the number of bytes read. -/
def zpCurveFromBytes (a b : ℤ) (data : List UInt8) : PointS ℤ × ℕ :=
  let (x, len) := zpFromBytes p data
  let (y, more) := zpFromBytes p (data.drop len)
  let e : PointS ℤ := ⟨false, x, y⟩
  (if zpCurveIsValidPoint p a b e then e else { e with infFlag := true }, len + more)

/-- `point_from_x`, with the nonresidue that the field keeps. -/
def zpPointFromX (nqr x a b : ℤ) : Option (PointS ℤ) := do
  let t := zpSquare p x
  let t := zpAdd p t a
  let t := zpMul p t x
  let t := zpAdd p t b
  let y ← fpTonelli (zpTable p) p nqr t
  return ⟨false, x, y⟩

/-- `element_to_bytes_compressed`. -/
def zpToBytesCompressed (e : PointS ℤ) : Option (List UInt8 × ℕ) := do
  let (data, len) ← zpToBytes p e.x
  return (data ++ [if zpSgnOdd e.y > 0 then 1 else 0], len + 1)

/-- The ordinate with the sign that the last byte of `element_from_bytes_compressed`
asks for. -/
def zpWithSign (sign : UInt8) (y : ℤ) : ℤ :=
  if sign ≠ 0 then if zpSgnOdd y < 0 then zpNeg p y else y
  else if zpSgnOdd y > 0 then zpNeg p y
  else y

/-- `element_from_bytes_compressed`. -/
def zpFromBytesCompressed (nqr a b : ℤ) (data : List UInt8) : Option (PointS ℤ × ℕ) := do
  let (x, len) := zpFromBytes p data
  let e ← zpPointFromX p nqr x a b
  return ({ e with y := zpWithSign p (data.getD len 0) e.y }, len + 1)

/-- `element_to_bytes_x_only`. -/
def zpToBytesXOnly (e : PointS ℤ) : Option (List UInt8 × ℕ) := zpToBytes p e.x

/-- `element_from_bytes_x_only`. -/
def zpFromBytesXOnly (nqr a b : ℤ) (data : List UInt8) : Option (PointS ℤ × ℕ) := do
  let (x, len) := zpFromBytes p data
  let e ← zpPointFromX p nqr x a b
  return (e, len)

end Operations

section Values

variable {p : ℕ} [prime : Fact p.Prime]

/-- The element is `O` or its coordinates satisfy the equation of the curve. -/
def PointS.OnCurve (p : ℕ) (a b : ℤ) (e : PointS ℤ) : Prop :=
  e.infFlag = true ∨ (e.y : ZMod p) ^ 2 = (e.x : ZMod p) ^ 3 + a * e.x + b

/-- The default implementation computes with the residues of its integers. -/
theorem zpTable_implements : (zpTable p).Implements (Int.cast : ℤ → ZMod p) where
  mul := zpMul_cast
  invert _ := mpzInvert_cast
  powMpz a n _ := zpPowMpz_cast a n
  is1 a n _ := by
    show zpIs1 (zpPowMpz p a n) = true ↔ ((zpPowMpz p a n : ℤ) : ZMod p) = 1
    rw [zpIs1_powMpz, zpPowMpz_cast]

omit prime in
/-- The test compares a sum that may not be reduced with a reduced square. -/
theorem zpCurveIsValidPoint_iff (a b : ℤ) {e : PointS ℤ} (finite : e.infFlag = false) :
    zpCurveIsValidPoint p a b e = true ↔
      zpAdd p (zpMul p (zpAdd p (zpSquare p e.x) a) e.x) b = zpSquare p e.y := by
  rw [zpCurveIsValidPoint, if_neg (by rw [finite]; exact Bool.false_ne_true), decide_eq_true_iff,
    zpCmp_eq_zero]

/-- What passes the test is on the curve. -/
theorem zpCurveIsValidPoint_onCurve {a b : ℤ} {e : PointS ℤ}
    (valid : zpCurveIsValidPoint p a b e = true) : e.OnCurve p a b := by
  cases flag : e.infFlag with
  | true => exact Or.inl flag
  | false =>
    have equal := congrArg (Int.cast : ℤ → ZMod p) ((zpCurveIsValidPoint_iff a b flag).mp valid)
    simp only [zpAdd_cast, zpMul_cast, zpSquare_cast] at equal
    right
    rw [← equal]
    ring

/-- With the coefficient `b` reduced the test is the equation of the curve. -/
theorem zpCurveIsValidPoint_iff_onCurve {a b : ℤ} (reduced : 0 ≤ b ∧ b < p) (e : PointS ℤ) :
    zpCurveIsValidPoint p a b e = true ↔ e.OnCurve p a b := by
  refine ⟨zpCurveIsValidPoint_onCurve, fun on => ?_⟩
  cases flag : e.infFlag with
  | true => exact if_pos flag
  | false =>
    rw [zpCurveIsValidPoint_iff a b flag]
    have positive : (0 : ℤ) < p := by exact_mod_cast prime.out.pos
    have remainder (z : ℤ) : 0 ≤ z % p ∧ z % p < p :=
      ⟨Int.emod_nonneg z positive.ne', Int.emod_lt_of_pos z positive⟩
    have equation := on.resolve_left (by rw [flag]; exact Bool.false_ne_true)
    refine eq_of_cast_eq (p := p) (zpAdd_reduced (remainder _) reduced) (remainder _) ?_
    simp only [zpAdd_cast, zpMul_cast, zpSquare_cast]
    rw [equation]
    ring

/-- The point above an abscissa: the routine returns, and its result is on the curve
exactly when there is a point. -/
theorem zpPointFromX_iff (odd : p ≠ 2) {nqr : ℤ} (nonresidue : ¬IsSquare (nqr : ZMod p))
    (x a b : ℤ) : ∃ y, zpPointFromX p nqr x a b = some ⟨false, x, y⟩ ∧
      ((y : ZMod p) ^ 2 = (x : ZMod p) ^ 3 + a * x + b ↔
        IsSquare ((x : ZMod p) ^ 3 + a * x + b)) := by
  obtain ⟨y, root, right⟩ := fpTonelli_iff zpTable_implements odd nonresidue
    (zpAdd p (zpMul p (zpAdd p (zpSquare p x) a) x) b)
  have cubic : ((zpAdd p (zpMul p (zpAdd p (zpSquare p x) a) x) b : ℤ) : ZMod p) =
      (x : ZMod p) ^ 3 + a * x + b := by
    simp only [zpAdd_cast, zpMul_cast, zpSquare_cast]
    ring
  rw [cubic] at right
  exact ⟨y, by rw [zpPointFromX, root]; rfl, right⟩

theorem zpWithSign_sq (sign : UInt8) (y : ℤ) :
    (zpWithSign p sign y : ZMod p) ^ 2 = (y : ZMod p) ^ 2 := by
  have negated : (zpNeg p y : ZMod p) ^ 2 = (y : ZMod p) ^ 2 := by rw [zpNeg_cast, neg_sq]
  rw [zpWithSign]
  split
  · split
    · exact negated
    · rfl
  · split
    · exact negated
    · rfl

/-- The full decoder gives `O` or a point of the curve for all bytes. -/
theorem zpCurveFromBytes_onCurve (a b : ℤ) (data : List UInt8) :
    (zpCurveFromBytes p a b data).1.OnCurve p a b := by
  simp only [zpCurveFromBytes]
  split
  · next valid => exact zpCurveIsValidPoint_onCurve valid
  · exact Or.inl rfl

/-- For all bytes the full decoder leaves `O` or a point of the curve, and each of the
short decoders returns and does so exactly when the abscissa has a point above it. -/
theorem fromBytes_onCurve_iff (odd : p ≠ 2) (a b : ℤ) {nqr : ℤ}
    (nonresidue : ¬IsSquare (nqr : ZMod p)) (data : List UInt8) :
    (zpCurveFromBytes p a b data).1.OnCurve p a b ∧
      (∃ e len, zpFromBytesCompressed p nqr a b data = some (e, len) ∧
        (e.OnCurve p a b ↔ IsSquare (((zpFromBytes p data).1 : ZMod p) ^ 3 +
          a * (zpFromBytes p data).1 + b))) ∧
      ∃ e len, zpFromBytesXOnly p nqr a b data = some (e, len) ∧
        (e.OnCurve p a b ↔ IsSquare (((zpFromBytes p data).1 : ZMod p) ^ 3 +
          a * (zpFromBytes p data).1 + b)) := by
  obtain ⟨y, run, right⟩ := zpPointFromX_iff odd nonresidue (zpFromBytes p data).1 a b
  have finite (y : ℤ) : PointS.OnCurve p a b ⟨false, (zpFromBytes p data).1, y⟩ ↔
      (y : ZMod p) ^ 2 = ((zpFromBytes p data).1 : ZMod p) ^ 3 + a * (zpFromBytes p data).1 + b :=
    or_iff_right Bool.false_ne_true
  refine ⟨zpCurveFromBytes_onCurve a b data,
    ⟨⟨false, (zpFromBytes p data).1,
      zpWithSign p (data.getD (zpFromBytes p data).2 0) y⟩, (zpFromBytes p data).2 + 1, ?_, ?_⟩,
    ⟨⟨false, (zpFromBytes p data).1, y⟩, (zpFromBytes p data).2, ?_, ?_⟩⟩
  · simp only [zpFromBytesCompressed, run]
    rfl
  · rw [finite, zpWithSign_sq, right]
  · simp only [zpFromBytesXOnly, run]
    rfl
  · rw [finite, right]

omit prime in
/-- Reading what was written: the pair of absolute values, if the test accepts it. -/
private theorem zpCurveFromBytes_append (a b : ℤ) {front back : List UInt8} {x y : ℕ}
    (length : front.length = fixedLengthInBytes p) (length' : back.length = fixedLengthInBytes p)
    (abscissa : mpzImport front = x) (ordinate : mpzImport back = y) :
    zpCurveFromBytes p a b (front ++ back) =
      (⟨!zpCurveIsValidPoint p a b ⟨false, x, y⟩, x, y⟩,
        fixedLengthInBytes p + fixedLengthInBytes p) := by
  have first : zpFromBytes p (front ++ back) = ((x : ℤ), fixedLengthInBytes p) := by
    rw [zpFromBytes, ← length, List.take_left, abscissa]
  have second : zpFromBytes p ((front ++ back).drop (fixedLengthInBytes p)) =
      ((y : ℤ), fixedLengthInBytes p) := by
    rw [zpFromBytes, ← length, List.drop_left, length, ← length', List.take_length, ordinate]
  simp only [zpCurveFromBytes, first, second]
  cases zpCurveIsValidPoint p a b ⟨false, x, y⟩ <;> rfl

/-- A point is read back from its bytes exactly when its integers fit without their
signs and the test on the absolute values finds a finite point for a finite point and
nothing for `O`. -/
theorem curveBytes_roundTrip_iff (a b : ℤ) {e : PointS ℤ} {P : (short (a : ZMod p) b).Point}
    (represents : (e.map Int.cast).Represents P) :
    (∃ data len, zpCurveToBytes p e = some (data, len) ∧ data.length = len ∧
      (zpCurveFromBytes p a b data).2 = len ∧
        ((zpCurveFromBytes p a b data).1.map Int.cast).Represents P) ↔
      e.x.natAbs < 256 ^ fixedLengthInBytes p ∧ e.y.natAbs < 256 ^ fixedLengthInBytes p ∧
        if e.infFlag then zpCurveIsValidPoint p a b ⟨false, e.x.natAbs, e.y.natAbs⟩ = false
        else ((e.x.natAbs : ZMod p) = e.x ∧ (e.y.natAbs : ZMod p) = e.y) ∧
          zpCurveIsValidPoint p a b ⟨false, e.x.natAbs, e.y.natAbs⟩ = true := by
  by_cases small : e.x.natAbs < 256 ^ fixedLengthInBytes p
  · by_cases small' : e.y.natAbs < 256 ^ fixedLengthInBytes p
    · obtain ⟨front, run, length, abscissa⟩ := (zpToBytes_eq p e.x).1 small
      obtain ⟨back, run', length', ordinate⟩ := (zpToBytes_eq p e.y).1 small'
      have written : zpCurveToBytes p e =
          some (front ++ back, fixedLengthInBytes p + fixedLengthInBytes p) := by
        rw [zpCurveToBytes, run, run']
        rfl
      have read := zpCurveFromBytes_append a b length length' abscissa ordinate
      have decoded : (∃ data len, zpCurveToBytes p e = some (data, len) ∧ data.length = len ∧
          (zpCurveFromBytes p a b data).2 = len ∧
            ((zpCurveFromBytes p a b data).1.map Int.cast).Represents P) ↔
          ((PointS.mk (!zpCurveIsValidPoint p a b ⟨false, e.x.natAbs, e.y.natAbs⟩)
            (e.x.natAbs : ℤ) (e.y.natAbs : ℤ)).map Int.cast).Represents P := by
        constructor
        · rintro ⟨data, len, run, -, -, value⟩
          obtain ⟨rfl, rfl⟩ := Prod.mk.inj (Option.some.inj (written.symm.trans run))
          rwa [read] at value
        · intro value
          refine ⟨_, _, written, by rw [List.length_append, length, length'], ?_, ?_⟩
          · rw [read]
          · rw [read]
            exact value
      rw [decoded, and_iff_right small, and_iff_right small']
      cases P with
      | zero =>
        have infinite : e.infFlag = true := represents
        rw [if_pos infinite]
        show (!_) = true ↔ _
        rw [Bool.not_eq_true']
      | some x y on =>
        rw [PointS.represents_some_iff, PointS.map, PointS.mk.injEq] at represents ⊢
        obtain ⟨finite, rfl, rfl⟩ := represents
        rw [if_neg (by rw [finite]; exact Bool.false_ne_true), Bool.not_eq_false', and_comm,
          Int.cast_natCast, Int.cast_natCast]
    · refine iff_of_false ?_ fun right => small' right.2.1
      rintro ⟨data, len, run, -⟩
      rw [zpCurveToBytes, (zpToBytes_eq p e.y).2 small'] at run
      cases first : zpToBytes p e.x with
      | none =>
        rw [first] at run
        cases run
      | some pair =>
        rw [first] at run
        cases run
  · refine iff_of_false ?_ fun right => small right.1
    rintro ⟨data, len, run, -⟩
    rw [zpCurveToBytes, (zpToBytes_eq p e.x).2 small] at run
    cases run

end Values

section Small

/-- The point `(0, 1)` of `y^2 = x^3 + 2 x + 1` over `F_5`. -/
def smallBytesPoint : (short ((2 : ℤ) : ZMod 5) ((1 : ℤ) : ZMod 5)).Point :=
  .some 0 1 (short_nonsingular (by decide) (by decide) (by decide))

theorem fromBytes_onCurve_small :
    (zpCurveFromBytes 5 2 1 [0, 1]).1.OnCurve 5 2 1 ∧
      (∃ e len, zpFromBytesCompressed 5 2 2 1 [0, 1] = some (e, len) ∧
        (e.OnCurve 5 2 1 ↔ IsSquare (((zpFromBytes 5 [0, 1]).1 : ZMod 5) ^ 3 +
          (2 : ℤ) * (zpFromBytes 5 [0, 1]).1 + (1 : ℤ)))) :=
  have nonresidue : ¬IsSquare ((2 : ℤ) : ZMod 5) := by decide
  have right := fromBytes_onCurve_iff (by decide) 2 1 nonresidue [0, 1]
  ⟨right.1, right.2.1⟩

/-- No point of the curve has abscissa two, and the short decoders accept it. -/
theorem fromBytes_offCurve :
    zpFromBytesCompressed 5 2 2 1 [2, 0] = some (⟨false, 2, 4⟩, 2) ∧
      zpFromBytesXOnly 5 2 2 1 [2] = some (⟨false, 2, 4⟩, 1) ∧
        ¬PointS.OnCurve 5 2 1 ⟨false, 2, 4⟩ := by
  refine ⟨by decide +kernel, by decide +kernel, ?_⟩
  rintro (flag | equation)
  · exact absurd flag (by decide)
  · exact absurd equation (by decide)

theorem curveBytes_roundTrip_small :
    ∃ data len, zpCurveToBytes 5 ⟨false, 0, 1⟩ = some (data, len) ∧ data.length = len ∧
      (zpCurveFromBytes 5 2 1 data).2 = len ∧
        ((zpCurveFromBytes 5 2 1 data).1.map Int.cast).Represents smallBytesPoint :=
  (curveBytes_roundTrip_iff (p := 5) 2 1 (e := ⟨false, 0, 1⟩) (P := smallBytesPoint)
    rfl).mpr (by decide)

/-- With `b` zero a fresh object, which is `O`, is read back as the finite point `(0, 0)`. -/
theorem curveBytes_identity_lost :
    (curveInit.map Int.cast).Represents (0 : (short (1 : ZMod 5) 0).Point) ∧
      zpCurveToBytes 5 curveInit = some ([0, 0], 2) ∧
      zpCurveFromBytes 5 1 0 [0, 0] = (⟨false, 0, 0⟩, 2) ∧
      ¬((zpCurveFromBytes 5 1 0 [0, 0]).1.map Int.cast).Represents
        (0 : (short (1 : ZMod 5) 0).Point) :=
  ⟨rfl, by decide, by decide, Bool.false_ne_true⟩

end Small

end Pbc.Ecc
