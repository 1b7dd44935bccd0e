import Pbc.Arith.FlaggedFp
import Pbc.Arith.NaiveFp

/-!
# Reduced limbs with a flag for zero

The implementation of `F_p` that keeps the residue itself in its limbs. It is also
chosen for even moduli. The routines that multiply, raise to a power or read outside
data set the flag without looking at the limbs they have written.
-/

open Pbc.Gmp

namespace Pbc.Arith

section Operations

variable (f : FpFieldData)

/-- `from_mpz`, for an integer of at most the limbs of the modulus. -/
def fromMpz (e : DataS) (z : ℕ) : DataS := { e with d := z }

/-- `fp_set_mpz`. -/
def fasterSetMpz (e : DataS) (z : ℤ) : DataS :=
  if z = 0 then { e with flag := false }
  else { fromMpz e (z % f.order).toNat with flag := true }

/-- `fp_set_si`. -/
def fasterSetSi (e : DataS) (op : ℤ) : DataS :=
  if op = 0 then { e with flag := false }
  else if op < 0 then ⟨true, (mpnSub1 f.base f.limbs f.order (-op).toNat).1⟩
  else ⟨true, op.toNat⟩

/-- `fp_to_mpz`. -/
def fasterToMpz (e : DataS) : ℕ := if !e.flag then 0 else e.d

/-- `fp_set1`. -/
def fasterSet1 (_e : DataS) : DataS := ⟨true, 1⟩

/-- `fp_is1`. -/
def fasterIs1 (e : DataS) : Bool := if !e.flag then false else e.d = 1

/-- `fp_mul`. -/
def fasterMul (c a b : DataS) : DataS :=
  if !a.flag || !b.flag then { c with flag := false }
  else ⟨true, (mpnTdivQr (a.d * b.d) f.order).2⟩

/-- `fp_square`. -/
def fasterSquare (c a : DataS) : DataS :=
  if !a.flag then { c with flag := false } else ⟨true, a.d ^ 2 % f.order⟩

/-- `fp_mul_si`. -/
def fasterMulSi (c a : DataS) (op : ℤ) : DataS :=
  if !a.flag || op = 0 then { c with flag := false }
  else
    let (tmp, top) := mpnMul1 f.base f.limbs a.d op.natAbs
    let c := ⟨true, (mpnTdivQr (tmp + top * f.base ^ f.limbs) f.order).2⟩
    if op < 0 then fpNeg f c c else c

/-- `fp_pow_mpz`, for a nonnegative exponent. -/
def fasterPowMpz (c a : DataS) (op : ℕ) : DataS :=
  if !a.flag then { c with flag := false }
  else { fromMpz c (fasterToMpz a ^ op % f.order) with flag := true }

/-- `fp_invert`. -/
def fasterInvert (c a : DataS) : Option DataS := do
  let z ← mpzInvert f.order (fasterToMpz a)
  return { fromMpz c z.toNat with flag := true }

/-- `fp_random`, from the integer that `pbc_mpz_random` finds. -/
def fasterRandom (a : DataS) (z : ℕ) : DataS :=
  if z ≠ 0 then { fromMpz a z with flag := true } else { a with flag := false }

/-- `fp_from_hash`. -/
def fasterFromHash (a : DataS) (data : List UInt8) : Option DataS :=
  (pbcMpzFromHash f.order data).map fun z => fasterSetMpz f a z

/-- `fp_from_bytes`. -/
def fasterFromBytes (a : DataS) (data : List UInt8) : DataS :=
  let z := mpzImport (data.take (fixedLengthInBytes f.order))
  if z = 0 then { a with flag := false } else fromMpz { a with flag := true } z

end Operations

section Values

variable {f : FpFieldData}

/-- A residue in the limbs, and the flag. -/
theorem natMod_holds {z : ℕ} (nonzero : ¬f.order ∣ z) : (DataS.mk true (z % f.order)).Holds f z := by
  rw [DataS.holds_mk, ZMod.natCast_mod]
  refine ⟨Nat.pos_of_ne_zero fun zero => ?_, Nat.mod_lt z f.order_pos, rfl⟩
  exact nonzero (Nat.dvd_of_mod_eq_zero zero)

theorem fasterToMpz_cast {a : DataS} {x : ZMod f.order} (holds : a.Holds f x) :
    (fasterToMpz a : ZMod f.order) = x := by
  cases flag : a.flag with
  | false =>
    rw [fasterToMpz, if_pos (by rw [flag]; decide), (DataS.holds_clear flag).mp holds, Nat.cast_zero]
  | true =>
    rw [fasterToMpz, if_neg (by rw [flag]; decide)]
    exact ((DataS.holds_set flag).mp holds).2.2

theorem fasterSetMpz_holds (e : DataS) {z : ℤ} (nonzero : z = 0 ∨ ¬(f.order : ℤ) ∣ z) :
    (fasterSetMpz f e z).Holds f z := by
  rw [fasterSetMpz]
  split
  · next zero => rw [DataS.holds_clear rfl, zero, Int.cast_zero]
  · next set =>
    have positive : (0 : ℤ) < f.order := by exact_mod_cast f.order_pos
    have lower := Int.emod_nonneg z positive.ne'
    have upper := Int.emod_lt_of_pos z positive
    have rest : z % f.order ≠ 0 := fun zero =>
      nonzero.resolve_left set (Int.dvd_of_emod_eq_zero zero)
    simp only [fromMpz, DataS.holds_mk]
    refine ⟨by omega, by omega, ?_⟩
    rw [← Int.cast_natCast, Int.toNat_of_nonneg lower, ZMod.intCast_mod]

theorem fasterSetSi_holds {f : LimbField} (e : DataS) {op : ℤ} (fits : op.natAbs < f.base) :
    (fasterSetSi f e op).Holds f op := by
  have wide := f.base_le_order
  rw [fasterSetSi]
  split
  · next zero => rw [DataS.holds_clear rfl, zero, Int.cast_zero]
  · next nonzero =>
    split
    · next negative =>
      rw [mpnSub1, mpnSubN_of_le (by omega), DataS.holds_mk]
      refine ⟨by omega, by omega, ?_⟩
      rw [Nat.cast_sub (by omega), ZMod.natCast_self, zero_sub, ← Int.cast_natCast,
        Int.toNat_of_nonneg (by omega), Int.cast_neg, neg_neg]
    · next positive =>
      rw [DataS.holds_mk]
      refine ⟨by omega, by omega, ?_⟩
      rw [← Int.cast_natCast, Int.toNat_of_nonneg (by omega)]

theorem fasterSet1_holds (e : DataS) : (fasterSet1 e).Holds f 1 := by
  rw [fasterSet1, DataS.holds_mk, Nat.cast_one]
  exact ⟨Nat.one_pos, f.one_lt_order, rfl⟩

theorem fasterIs1_eq {a : DataS} {x : ZMod f.order} (holds : a.Holds f x) :
    fasterIs1 a = true ↔ x = 1 := by
  have large : Fact (1 < f.order) := ⟨f.one_lt_order⟩
  cases flag : a.flag with
  | false =>
    rw [fasterIs1, if_pos (by rw [flag]; decide), (DataS.holds_clear flag).mp holds]
    exact iff_of_false Bool.false_ne_true zero_ne_one
  | true =>
    obtain ⟨positive, reduced, rfl⟩ := (DataS.holds_set flag).mp holds
    have same := natCast_eq_iff reduced f.one_lt_order
    rw [Nat.cast_one] at same
    rw [fasterIs1, if_neg (by rw [flag]; decide), decide_eq_true_iff, same]

/-- A product, unless it is a nonzero multiple of the modulus. -/
theorem fasterMul_holds (c : DataS) {a b : DataS} {x y : ZMod f.order} (left : a.Holds f x)
    (right : b.Holds f y) (nonzero : a.flag = true → b.flag = true → ¬f.order ∣ a.d * b.d) :
    (fasterMul f c a b).Holds f (x * y) := by
  cases flag : a.flag with
  | false =>
    rw [fasterMul, if_pos (by rw [flag]; rfl), (DataS.holds_clear flag).mp left, zero_mul]
    exact (DataS.holds_clear rfl).mpr rfl
  | true =>
    cases flag' : b.flag with
    | false =>
      rw [fasterMul, if_pos (by rw [flag, flag']; rfl), (DataS.holds_clear flag').mp right, mul_zero]
      exact (DataS.holds_clear rfl).mpr rfl
    | true =>
      obtain ⟨-, -, rfl⟩ := (DataS.holds_set flag).mp left
      obtain ⟨-, -, rfl⟩ := (DataS.holds_set flag').mp right
      rw [fasterMul, if_neg (by rw [flag, flag']; decide), mpnTdivQr, ← Nat.cast_mul]
      exact natMod_holds (nonzero flag flag')

theorem fasterSquare_eq (c : DataS) {a : DataS} : fasterSquare f c a = fasterMul f c a a := by
  cases flag : a.flag with
  | false => rw [fasterSquare, fasterMul, if_pos (by rw [flag]; rfl), if_pos (by rw [flag]; rfl)]
  | true =>
    rw [fasterSquare, fasterMul, if_neg (by rw [flag]; decide), if_neg (by rw [flag]; decide), sq,
      mpnTdivQr]

/-- A product with a machine integer, unless it is a nonzero multiple of the modulus. -/
theorem fasterMulSi_holds (c : DataS) {a : DataS} {x : ZMod f.order} (holds : a.Holds f x) {op : ℤ}
    (nonzero : a.flag = true → op ≠ 0 → ¬f.order ∣ a.d * op.natAbs) :
    (fasterMulSi f c a op).Holds f (x * op) := by
  cases flag : a.flag with
  | false =>
    rw [fasterMulSi, if_pos (by rw [flag]; rfl), (DataS.holds_clear flag).mp holds, zero_mul]
    exact (DataS.holds_clear rfl).mpr rfl
  | true =>
    by_cases zero : op = 0
    · rw [fasterMulSi, if_pos (by rw [zero, decide_eq_true rfl, Bool.or_true]), zero, Int.cast_zero,
        mul_zero]
      exact (DataS.holds_clear rfl).mpr rfl
    · obtain ⟨-, -, rfl⟩ := (DataS.holds_set flag).mp holds
      have product := natMod_holds (nonzero flag zero)
      have whole : a.d * op.natAbs % f.base ^ f.limbs +
          a.d * op.natAbs / f.base ^ f.limbs * f.base ^ f.limbs = a.d * op.natAbs := by
        rw [mul_comm (_ / _), Nat.mod_add_div]
      rw [fasterMulSi, if_neg (by simp [flag, zero])]
      simp only [mpnMul1, mpnTdivQr, whole]
      rw [Nat.cast_mul] at product
      split
      · next negative =>
        have opposite : (op : ZMod f.order) = -((op.natAbs : ℕ) : ZMod f.order) := by
          rw [← Int.cast_natCast, ← Int.cast_neg, Int.ofNat_natAbs_of_nonpos negative.le, neg_neg]
        rw [opposite, mul_neg]
        exact fpNeg_holds _ product
      · next positive =>
        have same : (op : ZMod f.order) = ((op.natAbs : ℕ) : ZMod f.order) := by
          rw [← Int.cast_natCast, Int.natAbs_of_nonneg (not_lt.mp positive)]
        rw [same]
        exact product

/-- A power of a nonzero element, unless it vanishes. -/
theorem fasterPowMpz_holds (c : DataS) {a : DataS} {x : ZMod f.order} (holds : a.Holds f x) {op : ℕ}
    (zero : a.flag = false → op ≠ 0) (nonzero : a.flag = true → ¬f.order ∣ a.d ^ op) :
    (fasterPowMpz f c a op).Holds f (x ^ op) := by
  cases flag : a.flag with
  | false =>
    rw [fasterPowMpz, if_pos (by rw [flag]; rfl), (DataS.holds_clear flag).mp holds,
      zero_pow (zero flag)]
    exact (DataS.holds_clear rfl).mpr rfl
  | true =>
    obtain ⟨-, -, rfl⟩ := (DataS.holds_set flag).mp holds
    rw [fasterPowMpz, if_neg (by rw [flag]; decide), fasterToMpz, if_neg (by rw [flag]; decide),
      ← Nat.cast_pow]
    exact natMod_holds (nonzero flag)

/-- An inverse of an invertible element. -/
theorem fasterInvert_holds (c : DataS) {a : DataS} {x : ZMod f.order} (holds : a.Holds f x)
    (flag : a.flag = true) (coprime : Nat.gcd a.d f.order = 1) :
    ∃ e y, fasterInvert f c a = some e ∧ e.Holds f y ∧ y * x = 1 := by
  obtain ⟨-, -, rfl⟩ := (DataS.holds_set flag).mp holds
  obtain ⟨b, inverted, ⟨lower, upper⟩, product⟩ := mpzInvert_mul (a := (a.d : ℤ)) f.order_pos coprime
  rw [Int.cast_natCast] at product
  have value : ((b.toNat : ℕ) : ZMod f.order) = b := by
    rw [← Int.cast_natCast, Int.toNat_of_nonneg lower]
  have limbs : fasterToMpz a = a.d := by rw [fasterToMpz, if_neg (by rw [flag]; decide)]
  refine ⟨⟨true, b.toNat⟩, b, ?_, ?_, product⟩
  · rw [fasterInvert, limbs, inverted]
    rfl
  · have large : Fact (1 < f.order) := ⟨f.one_lt_order⟩
    rw [DataS.holds_mk, value]
    refine ⟨?_, by omega, rfl⟩
    refine Nat.pos_of_ne_zero fun zero => ?_
    rw [← value, zero, Nat.cast_zero, zero_mul] at product
    exact zero_ne_one product

theorem fasterRandom_holds (a : DataS) {z : ℕ} (reduced : z < f.order) :
    (fasterRandom a z).Holds f z := by
  rw [fasterRandom]
  split
  · next nonzero =>
    simp only [fromMpz, DataS.holds_mk]
    exact ⟨Nat.pos_of_ne_zero nonzero, reduced, trivial⟩
  · next zero => rw [DataS.holds_clear rfl, not_not.mp zero, Nat.cast_zero]

theorem fasterFromBytes_holds (a : DataS) {data : List UInt8}
    (reduced : mpzImport (data.take (fixedLengthInBytes f.order)) < f.order) :
    (fasterFromBytes f a data).Holds f
      (mpzImport (data.take (fixedLengthInBytes f.order)) : ℕ) := by
  simp only [fasterFromBytes]
  split
  · next zero => rw [DataS.holds_clear rfl, zero, Nat.cast_zero]
  · next nonzero =>
    simp only [fromMpz, DataS.holds_mk]
    exact ⟨Nat.pos_of_ne_zero nonzero, reduced, trivial⟩

end Values

end Pbc.Arith
