import Pbc.Arith.Sign
import Pbc.Ecc.CurveBytes

/-!
# Short encodings of points

The compressed encoding keeps the abscissa and the sign of the ordinate, the other one the
abscissa alone. The decoders compute a square root, whose sign depends on the nonresidue that
the field keeps; the stored sign makes up for it.
-/

open Pbc.Arith Pbc.Gmp

namespace Pbc.Ecc

section Operations

variable (p : ℕ)

/-- `point_from_x(P, x, a, b)`, which writes the ordinate first. -/
def zpPointFromXAt (nqr : ℤ) (P : PointS ℤ) (x a b : ℤ) : Option (PointS ℤ) := do
  let P := { P with infFlag := false }
  let t := zpSquare p x
  let t := zpAdd p t a
  let t := zpMul p t x
  let t := zpAdd p t b
  let y ← fpTonelli (zpTable p) p nqr t
  let P := { P with y := y }
  return { P with x := x }

/-- `element_from_bytes_compressed` into a point object. -/
def zpFromBytesCompressedAt (nqr a b : ℤ) (P : PointS ℤ) (data : List UInt8) :
    Option (PointS ℤ × ℕ) := do
  let (x, len) := zpFromBytes p data
  let P := { P with x := x }
  let P ← zpPointFromXAt p nqr P P.x a b
  return ({ P with y := zpWithSign p (data.getD len 0) P.y }, len + 1)

/-- `element_from_bytes_x_only` into a point object. -/
def zpFromBytesXOnlyAt (nqr a b : ℤ) (P : PointS ℤ) (data : List UInt8) :
    Option (PointS ℤ × ℕ) := do
  let (x, len) := zpFromBytes p data
  let P := { P with x := x }
  let P ← zpPointFromXAt p nqr P P.x a b
  return (P, len)

/-- `element_length_in_bytes_compressed`. -/
def zpLengthInBytesCompressed : ℕ := fixedLengthInBytes p + 1

/-- `element_length_in_bytes_x_only`. -/
def zpLengthInBytesXOnly : ℕ := fixedLengthInBytes p

end Operations

/-- The object is overwritten, whatever it held. -/
theorem zpFromBytesCompressedAt_eq (p : ℕ) (nqr a b : ℤ) (P : PointS ℤ) (data : List UInt8) :
    zpFromBytesCompressedAt p nqr a b P data = zpFromBytesCompressed p nqr a b data := by
  simp only [zpFromBytesCompressedAt, zpFromBytesCompressed, zpPointFromXAt, zpPointFromX,
    Option.bind_eq_bind, Option.bind_assoc, Option.pure_def, Option.bind_some]

theorem zpFromBytesXOnlyAt_eq (p : ℕ) (nqr a b : ℤ) (P : PointS ℤ) (data : List UInt8) :
    zpFromBytesXOnlyAt p nqr a b P data = zpFromBytesXOnly p nqr a b data := by
  simp only [zpFromBytesXOnlyAt, zpFromBytesXOnly, zpPointFromXAt, zpPointFromX,
    Option.bind_eq_bind, Option.bind_assoc, Option.pure_def, Option.bind_some]

section Values

variable {p : ℕ} [prime : Fact p.Prime]

/-- The routine ends with a product, which is reduced. -/
theorem fpTonelli_reduced {nqr a y : ℤ} (run : fpTonelli (zpTable p) p nqr a = some y) :
    LeastResidue p y := by
  have positive : (0 : ℤ) < p := by exact_mod_cast prime.out.pos
  simp only [fpTonelli, bind, Option.bind_eq_some_iff] at run
  obtain ⟨ginv, -, last⟩ := run
  rw [← Option.some.inj last]
  exact ⟨Int.emod_nonneg _ positive.ne', Int.emod_lt_of_pos _ positive⟩

theorem odd_prime (odd : p ≠ 2) : p % 2 = 1 := prime.out.eq_two_or_odd.resolve_left odd

theorem zpSgn_neg (odd : p ≠ 2) {y : ℤ} (reduced : LeastResidue p y) :
    zpSgnOdd (zpNeg p y) = -zpSgnOdd y :=
  (zpSigns_lawful (odd_prime odd)).turns y reduced

theorem eq_zero_of_zpSgn (odd : p ≠ 2) {y : ℤ} (reduced : LeastResidue p y)
    (zero : zpSgnOdd y = 0) : y = 0 :=
  ((zpSigns_lawful (odd_prime odd)).zero y reduced).mp zero

/-- Above the abscissa of a point of the curve the routine finds that point or its inverse. -/
theorem zpPointFromX_eq (odd : p ≠ 2) {nqr : ℤ} (nonresidue : ¬IsSquare (nqr : ZMod p)) {x y a b : ℤ}
    (reduced : LeastResidue p y) (on : (y : ZMod p) ^ 2 = (x : ZMod p) ^ 3 + a * x + b) :
    ∃ y', zpPointFromX p nqr x a b = some ⟨false, x, y'⟩ ∧ (y' = y ∨ y' = zpNeg p y) := by
  obtain ⟨y', run, square⟩ := zpPointFromX_iff odd nonresidue x a b
  refine ⟨y', run, ?_⟩
  have residue : LeastResidue p y' := by
    simp only [zpPointFromX, bind, Option.bind_eq_some_iff] at run
    obtain ⟨root, tonelli, last⟩ := run
    obtain ⟨-, -, rfl⟩ := PointS.mk.inj (Option.some.inj last)
    exact fpTonelli_reduced tonelli
  have squares := square.mpr ⟨(y : ZMod p), by rw [← on, sq]⟩
  rw [← on] at squares
  rcases sq_eq_sq_iff_eq_or_eq_neg.mp squares with same | opposite
  · exact Or.inl (eq_of_cast_eq residue reduced same)
  · rw [← zpNeg_cast] at opposite
    exact Or.inr (eq_of_cast_eq residue (zpNeg_reduced reduced) opposite)

/-- The sign picks the root out of the two. -/
theorem zpWithSign_eq (odd : p ≠ 2) {y y' : ℤ} (reduced : LeastResidue p y)
    (root : y' = y ∨ y' = zpNeg p y) : zpWithSign p (if zpSgnOdd y > 0 then 1 else 0) y' = y := by
  have turns := zpSgn_neg odd reduced
  have twice : zpNeg p (zpNeg p y) = y := by
    obtain ⟨lower, upper⟩ := reduced
    simp only [zpNeg]
    split_ifs
    all_goals omega
  by_cases positive : zpSgnOdd y > 0
  · rw [if_pos positive, zpWithSign, if_pos (by decide)]
    rcases root with rfl | rfl
    · rw [if_neg (by omega)]
    · rw [turns, if_pos (by omega), twice]
  · rw [if_neg positive, zpWithSign, if_neg (by decide)]
    rcases root with rfl | rfl
    · rw [if_neg positive]
    · rw [turns]
      split
      · exact twice
      · rw [eq_zero_of_zpSgn odd reduced (by omega)]
        rfl

omit prime in
/-- The bytes of an abscissa are read back, with anything behind them. -/
theorem zpFromBytes_append {x : ℤ} (reduced : LeastResidue p x) :
    ∃ data, zpToBytes p x = some (data, fixedLengthInBytes p) ∧
      data.length = fixedLengthInBytes p ∧
      ∀ rest, zpFromBytes p (data ++ rest) = (x, fixedLengthInBytes p) := by
  obtain ⟨lower, upper⟩ := reduced
  have small : x.natAbs < 256 ^ fixedLengthInBytes p :=
    lt_of_lt_of_le (by omega : x.natAbs < p) (lt_pow_byteCount p).le
  obtain ⟨data, run, length, value⟩ := (zpToBytes_eq p x).1 small
  refine ⟨data, run, length, ?_⟩
  intro rest
  rw [zpFromBytes, List.take_left' length, value, Int.natAbs_of_nonneg lower]

variable {nqr x y a b : ℤ}

end Values

end Pbc.Ecc
