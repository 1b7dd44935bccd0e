import Pbc.Arith.FlaggedFp

/-!
# Reduced limbs

The implementation of `F_p` that keeps every residue in as many limbs as the modulus
has, zero included. Its routines overwrite their destination whole.
-/

open Pbc.Gmp

namespace Pbc.Arith

/-- A reduced integer holds its residue. -/
structure Reduced (p d : ℕ) (x : ZMod p) : Prop where
  small : d < p
  value : (d : ZMod p) = x

section Operations

variable (f : LimbField)

/-- `fp_set_mpz`. -/
def fastSetMpz (z : ℤ) : ℕ := (z % f.order).toNat

/-- `fp_set_si`. -/
def fastSetSi (op : ℤ) : ℕ :=
  if op < 0 then (mpnSub1 f.base f.limbs f.order (-op).toNat).1 else op.toNat

/-- `fp_set1`. -/
def fastSet1 : ℕ := 1

/-- `fp_add`. -/
def fastAdd (a b : ℕ) : ℕ :=
  let (r, carry) := mpnAddN f.base f.limbs a b
  if carry ≠ 0 ∨ mpnCmp r f.order ≥ 0 then (mpnSubN f.base f.limbs r f.order).1 else r

/-- `fp_double`. -/
def fastDouble (a : ℕ) : ℕ :=
  let (r, carry) := mpnLshift1 f.base f.limbs a
  if carry ≠ 0 ∨ mpnCmp r f.order ≥ 0 then (mpnSubN f.base f.limbs r f.order).1 else r

/-- `fp_sub`. -/
def fastSub (a b : ℕ) : ℕ :=
  let (r, borrow) := mpnSubN f.base f.limbs a b
  if borrow ≠ 0 then (mpnAddN f.base f.limbs r f.order).1 else r

/-- `fp_halve`. The carry goes to the highest bit, which the shift has cleared. -/
def fastHalve (a : ℕ) : ℕ :=
  let (r, carry) := if a % 2 = 1 then mpnAddN f.base f.limbs a f.order else (a, 0)
  let r := mpnRshift1 r
  if carry ≠ 0 then r + f.base ^ f.limbs / 2 else r

/-- `fp_neg`. -/
def fastNeg (a : ℕ) : ℕ := if a = 0 then 0 else (mpnSubN f.base f.limbs f.order a).1

/-- `fp_mul`. -/
def fastMul (a b : ℕ) : ℕ := (mpnTdivQr (a * b) f.order).2

/-- `fp_square`. -/
def fastSquare (a : ℕ) : ℕ := a ^ 2 % f.order

/-- `fp_mul_si`. -/
def fastMulSi (a : ℕ) (op : ℤ) : ℕ :=
  let (tmp, top) := mpnMul1 f.base f.limbs a op.natAbs
  let e := (mpnTdivQr (tmp + top * f.base ^ f.limbs) f.order).2
  if op < 0 then fastNeg f e else e

/-- `fp_pow_mpz`, for a nonnegative exponent. -/
def fastPowMpz (a op : ℕ) : ℕ := a ^ op % f.order

end Operations

section Values

/-- A remainder holds the residue of its integer. -/
theorem reduced_mod {p : ℕ} (positive : 0 < p) (d : ℕ) : Reduced p (d % p) d :=
  ⟨Nat.mod_lt d positive, ZMod.natCast_mod d p⟩

/-- The remainder of a signed integer holds its residue. -/
theorem reduced_emod {p : ℕ} (positive : 0 < p) (z : ℤ) : Reduced p (z % p).toNat z := by
  have order : (0 : ℤ) < p := by exact_mod_cast positive
  have lower := Int.emod_nonneg z order.ne'
  have upper := Int.emod_lt_of_pos z order
  refine ⟨by omega, ?_⟩
  rw [← Int.cast_natCast, Int.toNat_of_nonneg lower, ZMod.intCast_mod]

/-- The residue of a signed integer, by its size and its sign. -/
theorem intCast_natAbs {p : ℕ} (op : ℤ) :
    (op : ZMod p) = if op < 0 then -(op.natAbs : ZMod p) else op.natAbs := by
  split
  · next negative =>
    rw [← Int.cast_natCast, ← Int.cast_neg, Int.ofNat_natAbs_of_nonpos negative.le, neg_neg]
  · next positive => rw [← Int.cast_natCast, Int.natAbs_of_nonneg (not_lt.mp positive)]

variable {f : LimbField} {a b : ℕ} {x y : ZMod f.order}

theorem fastSetMpz_holds (z : ℤ) : Reduced f.order (fastSetMpz f z) z := reduced_emod f.order_pos z

theorem fastSetSi_holds {op : ℤ} (fits : op.natAbs < f.base) : Reduced f.order (fastSetSi f op) op := by
  have wide := f.base_le_order
  rw [fastSetSi]
  split
  · next negative =>
    rw [mpnSub1, mpnSubN_of_le (by omega)]
    refine ⟨by omega, ?_⟩
    rw [Nat.cast_sub (by omega), ZMod.natCast_self, zero_sub, ← Int.cast_natCast,
      Int.toNat_of_nonneg (by omega), Int.cast_neg, neg_neg]
  · next positive =>
    refine ⟨by omega, ?_⟩
    rw [← Int.cast_natCast, Int.toNat_of_nonneg (not_lt.mp positive)]

theorem fastSet1_holds : Reduced f.order fastSet1 1 := ⟨f.one_lt_order, Nat.cast_one⟩

theorem fastAdd_holds (left : Reduced f.order a x) (right : Reduced f.order b y) :
    Reduced f.order (fastAdd f a b) (x + y) := by
  obtain ⟨small, rfl⟩ := left
  obtain ⟨small', rfl⟩ := right
  have area := f.order_lt
  rw [← Nat.cast_add]
  rw [fastAdd]
  by_cases fits : a + b < f.base ^ f.limbs
  · simp only [mpnAddN_of_lt fits, ne_eq, not_true_eq_false, false_or, mpnCmp_nonneg]
    split
    · next above =>
      rw [mpnSubN_of_le above]
      exact ⟨by omega, by rw [Nat.cast_sub above, ZMod.natCast_self, sub_zero]⟩
    · next below => exact ⟨not_le.mp below, rfl⟩
  · have wrapped : a + b - f.base ^ f.limbs + f.base ^ f.limbs - f.order = a + b - f.order := by
      omega
    simp only [mpnAddN_of_le (not_lt.mp fits) (by omega), ne_eq, one_ne_zero, not_false_eq_true,
      true_or, if_true]
    rw [mpnSubN_of_lt (by omega), wrapped]
    exact ⟨by omega, by rw [Nat.cast_sub (by omega), ZMod.natCast_self, sub_zero]⟩

theorem fastDouble_holds (holds : Reduced f.order a x) : Reduced f.order (fastDouble f a) (x + x) := by
  have sum := fastAdd_holds holds holds
  rw [fastAdd, ← mpnLshift1_eq] at sum
  exact sum

/-- A borrow is paid back by the modulus. -/
theorem fastSub_holds (left : Reduced f.order a x) (right : Reduced f.order b y) :
    Reduced f.order (fastSub f a b) (x - y) := by
  obtain ⟨small, rfl⟩ := left
  obtain ⟨small', rfl⟩ := right
  have area := f.order_lt
  rw [fastSub]
  by_cases order : b ≤ a
  · simp only [mpnSubN, if_pos order, ne_eq, not_true_eq_false, if_false]
    exact ⟨by omega, Nat.cast_sub order⟩
  · simp only [mpnSubN, if_neg order, ne_eq, one_ne_zero, not_false_eq_true, if_true]
    rw [mpnAddN_of_le (by omega) (by omega)]
    have value : a + f.base ^ f.limbs - b + f.order - f.base ^ f.limbs = a + f.order - b := by omega
    refine ⟨by omega, ?_⟩
    rw [value, Nat.cast_sub (by omega), Nat.cast_add, ZMod.natCast_self, add_zero]

/-- The number that the shifted limbs make, with the carry in its place. -/
theorem fastHalve_eq (small : a < f.order) :
    fastHalve f a = if a % 2 = 1 then (a + f.order) / 2 else a / 2 := by
  have area := f.order_lt
  by_cases odd : a % 2 = 1
  · by_cases fits : a + f.order < f.base ^ f.limbs
    · simp only [fastHalve, if_pos odd, mpnAddN_of_lt fits, mpnRshift1, ne_eq, not_true_eq_false,
        if_false]
    · have even := f.two_dvd_area
      simp only [fastHalve, if_pos odd, mpnAddN_of_le (not_lt.mp fits) (by omega), mpnRshift1,
        ne_eq, one_ne_zero, not_false_eq_true, if_true]
      omega
  · simp only [fastHalve, if_neg odd, mpnRshift1, ne_eq, not_true_eq_false, if_false]

/-- Halving by an odd modulus. -/
theorem fastHalve_holds (holds : Reduced f.order a x) (odd : f.order % 2 = 1) :
    ∃ y, Reduced f.order (fastHalve f a) y ∧ y + y = x := by
  obtain ⟨small, rfl⟩ := holds
  refine ⟨(fastHalve f a : ℕ), ⟨?_, rfl⟩, ?_⟩
  · rw [fastHalve_eq small]
    split <;> omega
  · rw [← Nat.cast_add, fastHalve_eq small]
    split
    · next bit =>
      have whole : (a + f.order) / 2 + (a + f.order) / 2 = a + f.order := by omega
      rw [whole, Nat.cast_add, ZMod.natCast_self, add_zero]
    · next even =>
      have whole : a / 2 + a / 2 = a := by omega
      rw [whole]

theorem fastNeg_holds (holds : Reduced f.order a x) : Reduced f.order (fastNeg f a) (-x) := by
  obtain ⟨small, rfl⟩ := holds
  rw [fastNeg]
  split
  · next zero => exact ⟨f.order_pos, by rw [zero, Nat.cast_zero, neg_zero]⟩
  · next nonzero =>
    rw [mpnSubN_of_le small.le]
    exact ⟨by omega, by rw [Nat.cast_sub small.le, ZMod.natCast_self, zero_sub]⟩

theorem fastMul_holds (left : Reduced f.order a x) (right : Reduced f.order b y) :
    Reduced f.order (fastMul f a b) (x * y) := by
  rw [← left.value, ← right.value, ← Nat.cast_mul]
  exact reduced_mod f.order_pos (a * b)

theorem fastSquare_eq : fastSquare f a = fastMul f a a := by
  rw [fastSquare, fastMul, mpnTdivQr, sq]

theorem fastMulSi_holds (holds : Reduced f.order a x) (op : ℤ) :
    Reduced f.order (fastMulSi f a op) (x * op) := by
  have product := reduced_mod f.order_pos (a * op.natAbs)
  have whole : a * op.natAbs % f.base ^ f.limbs +
      a * op.natAbs / f.base ^ f.limbs * f.base ^ f.limbs = a * op.natAbs := by
    rw [mul_comm (_ / _), Nat.mod_add_div]
  rw [Nat.cast_mul, holds.value] at product
  rw [fastMulSi, intCast_natAbs]
  simp only [mpnMul1, mpnTdivQr, whole]
  split
  · rw [mul_neg]
    exact fastNeg_holds product
  · exact product

theorem fastPowMpz_holds (holds : Reduced f.order a x) (op : ℕ) :
    Reduced f.order (fastPowMpz f a op) (x ^ op) := by
  rw [← holds.value, ← Nat.cast_pow]
  exact reduced_mod f.order_pos (a ^ op)

end Values

end Pbc.Arith
