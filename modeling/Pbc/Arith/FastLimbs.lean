import Mathlib.Data.Nat.Digits.Lemmas
import Pbc.Arith.FastFp
import Pbc.Arith.LimbRuns

/-!
# The arrays of the fast implementation

An element of the fast implementation is an array of as many limbs as the modulus has,
the least first. The routines of the integer library read and leave the number of an
array; what the implementation does to single limbs is written out.
-/

open Pbc.Gmp

namespace Pbc.Arith

section Operations

variable (f : LimbField)

/-- The array in which the integer library leaves a number. -/
def LimbField.store (n : ℕ) : List ℕ := Nat.digitsAppend f.base f.limbs n

/-- The number of an array. -/
def LimbField.load (d : List ℕ) : ℕ := Nat.ofDigits f.base d

/-- `from_mpz`: the limbs that `mpz_export` counts, and zeros behind them. -/
def limbsFromMpz (z : ℕ) : List ℕ :=
  let limbs := Nat.digits f.base z
  limbs ++ List.replicate (f.limbs - limbs.length) 0

/-- `fp_to_mpz`. -/
def limbsToMpz (a : List ℕ) : ℕ := f.load a

/-- `fp_set_mpz`. -/
def limbsSetMpz (z : ℤ) : List ℕ := limbsFromMpz f (z % f.order).toNat

/-- `fp_set_si`. -/
def limbsSetSi (op : ℤ) : List ℕ :=
  if op < 0 then f.store (mpnSub1 f.base f.limbs f.order (-op).toNat).1
  else op.toNat :: List.replicate (f.limbs - 1) 0

/-- `fp_set0`, which is also what `fp_init` leaves. -/
def limbsSet0 : List ℕ := List.replicate f.limbs 0

/-- `fp_set1`. -/
def limbsSet1 : List ℕ := 1 :: List.replicate (f.limbs - 1) 0

/-- `fp_is1`. -/
def limbsIs1 (d : List ℕ) : Bool := d.headD 0 = 1 && d.tail.all fun limb => limb = 0

/-- `fp_is0`. -/
def limbsIs0 (d : List ℕ) : Bool := d.all fun limb => limb = 0

/-- `fp_add`. -/
def limbsAdd (a b : List ℕ) : List ℕ :=
  let (r, carry) := mpnAddN f.base f.limbs (f.load a) (f.load b)
  if carry ≠ 0 ∨ mpnCmp r f.order ≥ 0 then f.store (mpnSubN f.base f.limbs r f.order).1
  else f.store r

/-- `fp_double`. -/
def limbsDouble (a : List ℕ) : List ℕ :=
  let (r, carry) := mpnLshift1 f.base f.limbs (f.load a)
  if carry ≠ 0 ∨ mpnCmp r f.order ≥ 0 then f.store (mpnSubN f.base f.limbs r f.order).1
  else f.store r

/-- `fp_set`, by `mpz_set` of all limbs. -/
def limbsSet (a : List ℕ) : List ℕ := f.store (f.load a)

/-- `fp_halve`. The carry becomes the highest bit of the last limb. -/
def limbsHalve (a : List ℕ) : List ℕ :=
  let (r, carry) :=
    if a.headD 0 % 2 = 1 then mpnAddN f.base f.limbs (f.load a) f.order
    else (f.load (limbsSet f a), 0)
  let r := f.store (mpnRshift1 r)
  if carry ≠ 0 then r.modify (f.limbs - 1) fun limb => limb ||| 2 ^ (8 * f.limbBytes - 1) else r

/-- `fp_sub`. -/
def limbsSub (a b : List ℕ) : List ℕ :=
  let (r, borrow) := mpnSubN f.base f.limbs (f.load a) (f.load b)
  if borrow ≠ 0 then f.store (mpnAddN f.base f.limbs r f.order).1 else f.store r

/-- `fp_mul`, with the arrays that it sizes by `MAX_LIMBS`. -/
def limbsMul (a b : List ℕ) : Option (List ℕ) := do
  f.arrays true
  return f.store (mpnTdivQr (f.load a * f.load b) f.order).2

/-- `fp_square`: `mpz_powm_ui` in the array of the destination, and zeros behind it. -/
def limbsSquare (a : List ℕ) : List ℕ := limbsFromMpz f (f.load a ^ 2 % f.order)

/-- `fp_neg`. -/
def limbsNeg (a : List ℕ) : List ℕ :=
  if limbsIs0 a then limbsSet0 f else f.store (mpnSubN f.base f.limbs f.order (f.load a)).1

/-- `fp_mul_si`. Its array of `MAX_LIMBS` limbs takes one limb more than the modulus has. -/
def limbsMulSi (a : List ℕ) (op : ℤ) : Option (List ℕ) :=
  if maxLimbs < f.limbs + 1 then none
  else
    let (product, top) := mpnMul1 f.base f.limbs (f.load a) op.natAbs
    let tmp := f.store product ++ [top]
    let e := f.store (mpnTdivQr (f.load tmp) f.order).2
    some (if op < 0 then limbsNeg f e else e)

/-- `fp_pow_mpz`, for a nonnegative exponent. -/
def limbsPowMpz (a : List ℕ) (op : ℕ) : List ℕ := limbsFromMpz f (limbsToMpz f a ^ op % f.order)

/-- `fp_invert`. -/
def limbsInvert (a : List ℕ) : Option (List ℕ) :=
  (mpzInvert f.order (limbsToMpz f a)).map fun z => limbsFromMpz f z.toNat

/-- `fp_from_hash`. -/
def limbsFromHash (data : List UInt8) : Option (List ℕ) :=
  (pbcMpzFromHash f.order data).map fun z : ℕ => limbsSetMpz f z

/-- `fp_cmp`. -/
def limbsCmp (a b : List ℕ) : ℤ := mpnCmp (f.load a) (f.load b)

/-- `fp_sgn_odd`. -/
def limbsSgnOdd (a : List ℕ) : ℤ :=
  if limbsIs0 a then 0 else if a.headD 0 % 2 = 1 then 1 else -1

/-- `fp_to_bytes`: the bytes written, and their number. -/
def limbsToBytes (e : List ℕ) : Option (List UInt8 × ℕ) :=
  (pbcMpzOutRawN (fixedLengthInBytes f.order) (limbsToMpz f e)).map fun data =>
    (data, fixedLengthInBytes f.order)

/-- `fp_from_bytes`: the element and the number of bytes read. -/
def limbsFromBytes (data : List UInt8) : List ℕ × ℕ :=
  (limbsSetMpz f (mpzImport (data.take (fixedLengthInBytes f.order))), fixedLengthInBytes f.order)

end Operations

section Values

variable {f : LimbField} {a b : ℕ}

@[simp] theorem load_store (n : ℕ) : f.load (f.store n) = n := by
  rw [LimbField.load, LimbField.store, Nat.digitsAppend, Nat.ofDigits_append_replicate_zero,
    Nat.ofDigits_digits]

/-- The export of an integer with the zeros behind it is its array. -/
@[simp] theorem limbsFromMpz_eq (z : ℕ) : limbsFromMpz f z = f.store z := rfl

theorem length_store (fits : a < f.base ^ f.limbs) : (f.store a).length = f.limbs :=
  Nat.length_digitsAppend f.one_lt_base f.limbs fits

theorem lt_of_mem_store {limb : ℕ} (member : limb ∈ f.store a) : limb < f.base :=
  Nat.lt_of_mem_digitsAppend f.one_lt_base f.limbs limb member

/-- An array is determined by its number. -/
theorem eq_store {d : List ℕ} (length : d.length = f.limbs) (limbs : ∀ limb ∈ d, limb < f.base) :
    d = f.store (f.load d) :=
  ((Nat.setInvOn_digitsAppend_ofDigits f.one_lt_base f.limbs).1 ⟨length, limbs⟩).symm

/-- One limb and zeros behind it. -/
theorem store_limb (small : a < f.base) : a :: List.replicate (f.limbs - 1) 0 = f.store a := by
  have positive := f.limbs_pos
  have value : f.load (a :: List.replicate (f.limbs - 1) 0) = a := by
    rw [LimbField.load, Nat.ofDigits_cons, Nat.ofDigits_replicate_zero, mul_zero, add_zero]
  have array := eq_store (f := f) (d := a :: List.replicate (f.limbs - 1) 0)
    (by rw [List.length_cons, List.length_replicate]; omega) (by
      intro limb member
      rcases List.mem_cons.mp member with rfl | member
      · exact small
      · rw [List.eq_of_mem_replicate member]
        exact f.one_lt_base.le)
  rwa [value] at array

theorem limbsSet0_eq : limbsSet0 f = f.store 0 := by
  have positive := f.limbs_pos
  rw [← store_limb f.one_lt_base.le, limbsSet0, ← List.replicate_succ, Nat.sub_add_cancel positive]

theorem limbsSet1_eq : limbsSet1 f = f.store 1 := store_limb f.one_lt_base

theorem load_zeros {d : List ℕ} (zeros : ∀ limb ∈ d, limb = 0) : f.load d = 0 := by
  rw [List.eq_replicate_iff.mpr ⟨rfl, zeros⟩, LimbField.load, Nat.ofDigits_replicate_zero]

/-- All limbs are zero exactly for the number zero. -/
theorem limbsIs0_store : limbsIs0 (f.store a) = decide (a = 0) := by
  rw [Bool.eq_iff_iff, decide_eq_true_iff, limbsIs0, List.all_eq_true]
  constructor
  · intro zeros
    rw [← load_store (f := f) a]
    exact load_zeros fun limb member => of_decide_eq_true (zeros limb member)
  · rintro rfl limb member
    rw [← limbsSet0_eq, limbsSet0] at member
    exact decide_eq_true (List.eq_of_mem_replicate member)

theorem limbsIs1_store : limbsIs1 (f.store a) = decide (a = 1) := by
  rw [Bool.eq_iff_iff, decide_eq_true_iff, limbsIs1, Bool.and_eq_true, List.all_eq_true]
  constructor
  · rintro ⟨first, zeros⟩
    rw [← load_store (f := f) a]
    cases split : f.store a with
    | nil =>
      rw [split] at first
      exact absurd (of_decide_eq_true first) zero_ne_one
    | cons limb rest =>
      rw [split] at first zeros
      have one : limb = 1 := of_decide_eq_true first
      have none : f.load rest = 0 := load_zeros fun limb member => of_decide_eq_true (zeros limb member)
      rw [LimbField.load] at none
      rw [LimbField.load, Nat.ofDigits_cons, none, one]
      rfl
  · rintro rfl
    rw [← limbsSet1_eq, limbsSet1]
    exact ⟨rfl, fun limb member => decide_eq_true (List.eq_of_mem_replicate member)⟩

/-- The base is even, so the least limb has the parity of the number. -/
theorem headD_mod_two (d : List ℕ) : d.headD 0 % 2 = f.load d % 2 := by
  obtain ⟨half, even⟩ := f.two_dvd_base
  cases d with
  | nil => rfl
  | cons limb rest =>
    have shifted : f.base * Nat.ofDigits f.base rest % 2 = 0 := by
      rw [even, mul_assoc, Nat.mul_mod_right]
    rw [List.headD_cons, LimbField.load, Nat.ofDigits_cons]
    omega

/-- The highest bit of a limb. -/
theorem base_eq_two_mul (f : LimbField) : f.base = 2 * 2 ^ (8 * f.limbBytes - 1) := by
  have bits : 8 * f.limbBytes - 1 + 1 = 8 * f.limbBytes := by
    have := f.positive
    omega
  rw [← pow_succ', bits, pow_mul]
  rfl

/-- The highest bit of an array that is clear is set by a limb operation. -/
theorem modify_store (small : 2 * a < f.base ^ f.limbs) :
    (f.store a).modify (f.limbs - 1) (fun limb => limb ||| 2 ^ (8 * f.limbBytes - 1)) =
      f.store (a + f.base ^ f.limbs / 2) := by
  have positive := f.limbs_pos
  have bit := base_eq_two_mul f
  have length : (f.store a).length = f.limbs := length_store (by omega)
  have inside : f.limbs - 1 < (f.store a).length := by omega
  obtain ⟨lower, last, upper, split, lowers, changed⟩ :=
    List.exists_of_modify (fun limb => limb ||| 2 ^ (8 * f.limbBytes - 1)) inside
  have none : upper = [] := by
    rw [split, List.length_append, List.length_cons] at length
    exact List.length_eq_zero_iff.mp (by omega)
  subst none
  have value (limb : ℕ) : f.load (lower ++ [limb]) = f.load lower + f.base ^ (f.limbs - 1) * limb := by
    rw [LimbField.load, Nat.ofDigits_append, Nat.ofDigits_singleton, lowers]
    rfl
  have number : f.load lower + f.base ^ (f.limbs - 1) * last = a := by
    rw [← value, ← split, load_store]
  have area : f.base ^ f.limbs = 2 * (f.base ^ (f.limbs - 1) * 2 ^ (8 * f.limbBytes - 1)) := by
    rw [Nat.mul_left_comm, ← bit, ← pow_succ, Nat.sub_add_cancel positive]
  have clear : last < 2 ^ (8 * f.limbBytes - 1) := by
    by_contra high
    have most := Nat.mul_le_mul_left (f.base ^ (f.limbs - 1)) (not_lt.mp high)
    omega
  have bits : last ||| 2 ^ (8 * f.limbBytes - 1) = last + 2 ^ (8 * f.limbBytes - 1) := by
    have disjoint := Nat.two_pow_add_eq_or_of_lt clear 1
    rw [mul_one] at disjoint
    rw [Nat.or_comm, ← disjoint, add_comm]
  have sum : f.load (lower ++ [last + 2 ^ (8 * f.limbBytes - 1)]) = a + f.base ^ f.limbs / 2 := by
    rw [value, mul_add, ← add_assoc, number, area, Nat.mul_div_cancel_left _ two_pos]
  rw [changed, bits, ← sum]
  apply eq_store
  · rw [List.length_append, List.length_singleton, lowers, Nat.sub_add_cancel positive]
  · intro limb member
    rcases List.mem_append.mp member with old | new
    · exact lt_of_mem_store (split ▸ List.mem_append_left _ old)
    · rw [List.mem_singleton.mp new]
      omega

end Values

section Routines

variable {f : LimbField} {a b : ℕ}

theorem limbsSetMpz_eq (z : ℤ) : limbsSetMpz f z = f.store (fastSetMpz f z) := rfl

theorem limbsSetSi_eq {op : ℤ} (fits : op.natAbs < f.base) :
    limbsSetSi f op = f.store (fastSetSi f op) := by
  rw [limbsSetSi, fastSetSi]
  split
  · rfl
  · next positive => exact store_limb (by omega)

theorem limbsAdd_store : limbsAdd f (f.store a) (f.store b) = f.store (fastAdd f a b) := by
  simp only [limbsAdd, fastAdd, load_store]
  split <;> rfl

theorem limbsDouble_store : limbsDouble f (f.store a) = f.store (fastDouble f a) := by
  simp only [limbsDouble, fastDouble, load_store]
  split <;> rfl

theorem limbsSet_store : limbsSet f (f.store a) = f.store a := by rw [limbsSet, load_store]

/-- The shift leaves the highest bit clear for the carry. -/
theorem limbsHalve_store (small : a < f.order) :
    limbsHalve f (f.store a) = f.store (fastHalve f a) := by
  have area := f.order_lt
  have even := f.two_dvd_area
  have parity : (f.store a).headD 0 % 2 = a % 2 := by rw [headD_mod_two (f := f), load_store]
  simp only [limbsHalve, fastHalve, limbsSet_store, load_store, parity, mpnRshift1]
  by_cases odd : a % 2 = 1
  · simp only [if_pos odd]
    by_cases fits : a + f.order < f.base ^ f.limbs
    · simp only [mpnAddN_of_lt fits, ne_eq, not_true_eq_false, if_false]
    · simp only [mpnAddN_of_le (not_lt.mp fits) (by omega), ne_eq, one_ne_zero, not_false_eq_true,
        if_true]
      exact modify_store (by omega)
  · simp only [if_neg odd, ne_eq, not_true_eq_false, if_false]

theorem limbsSub_store : limbsSub f (f.store a) (f.store b) = f.store (fastSub f a b) := by
  simp only [limbsSub, fastSub, load_store]
  split <;> rfl

theorem limbsNeg_store : limbsNeg f (f.store a) = f.store (fastNeg f a) := by
  rw [limbsNeg, fastNeg, limbsIs0_store, load_store]
  by_cases zero : a = 0
  · rw [if_pos (decide_eq_true zero), if_pos zero, limbsSet0_eq]
  · rw [if_neg (by rwa [decide_eq_true_iff]), if_neg zero]

theorem limbsMul_store :
    limbsMul f (f.store a) (f.store b) = (f.arrays true).map fun _ => f.store (fastMul f a b) := by
  simp only [limbsMul, fastMul, load_store]
  cases f.arrays true <;> rfl

theorem limbsSquare_store : limbsSquare f (f.store a) = f.store (fastSquare f a) := by
  rw [limbsSquare, fastSquare, load_store, limbsFromMpz_eq]

/-- The limb that the product leaves follows the others. -/
theorem limbsMulSi_store (op : ℤ) : limbsMulSi f (f.store a) op =
    if maxLimbs < f.limbs + 1 then none else some (f.store (fastMulSi f a op)) := by
  have product : a * op.natAbs % f.base ^ f.limbs < f.base ^ f.limbs :=
    Nat.mod_lt _ (pow_pos f.one_lt_base.le _)
  have value : f.load (f.store (a * op.natAbs % f.base ^ f.limbs) ++
      [a * op.natAbs / f.base ^ f.limbs]) = a * op.natAbs % f.base ^ f.limbs +
        a * op.natAbs / f.base ^ f.limbs * f.base ^ f.limbs := by
    have low : Nat.ofDigits f.base (f.store (a * op.natAbs % f.base ^ f.limbs)) =
        a * op.natAbs % f.base ^ f.limbs := load_store _
    rw [LimbField.load, Nat.ofDigits_append, Nat.ofDigits_singleton, length_store product, low,
      mul_comm (f.base ^ f.limbs)]
  simp only [limbsMulSi, fastMulSi, mpnMul1, load_store, value]
  split
  · rfl
  · split
    · rw [limbsNeg_store]
    · rfl

theorem limbsPowMpz_store (op : ℕ) : limbsPowMpz f (f.store a) op = f.store (fastPowMpz f a op) := by
  rw [limbsPowMpz, limbsToMpz, fastPowMpz, load_store, limbsFromMpz_eq]

theorem limbsSgnOdd_store :
    limbsSgnOdd (f.store a) = if a = 0 then 0 else if a % 2 = 1 then 1 else -1 := by
  rw [limbsSgnOdd, limbsIs0_store, headD_mod_two (f := f), load_store]
  by_cases zero : a = 0
  · rw [if_pos (decide_eq_true zero), if_pos zero]
  · rw [if_neg (by rwa [decide_eq_true_iff]), if_neg zero]

end Routines

end Pbc.Arith
