import Mathlib.Data.Nat.Log
import Pbc.Gmp.Bytes

/-!
# Limb arrays

The low-level routines of the integer library on arrays of `t` limbs in a base. An
array is given by the number that its limbs make; a routine returns the number left
in its result array and the limb that it returns.
-/

namespace Pbc.Gmp

section Operations

variable (base t : ℕ)

/-- `mpz_size` of a nonzero integer. -/
def mpzSize (z : ℕ) : ℕ := Nat.log base z + 1

/-- `mpn_add_n`. -/
def mpnAddN (a b : ℕ) : ℕ × ℕ := ((a + b) % base ^ t, (a + b) / base ^ t)

/-- `mpn_sub_n`. -/
def mpnSubN (a b : ℕ) : ℕ × ℕ := if b ≤ a then (a - b, 0) else (a + base ^ t - b, 1)

/-- `mpn_sub_1`. -/
def mpnSub1 (a limb : ℕ) : ℕ × ℕ := mpnSubN base t a limb

/-- `mpn_cmp`, whose documented result is a sign. -/
def mpnCmp (a b : ℕ) : ℤ := if a < b then -1 else if a = b then 0 else 1

/-- `mpn_lshift` by one bit. -/
def mpnLshift1 (a : ℕ) : ℕ × ℕ := (2 * a % base ^ t, 2 * a / base ^ t)

/-- `mpn_rshift` by one bit. -/
def mpnRshift1 (a : ℕ) : ℕ := a / 2

/-- `mpn_mul_1`. -/
def mpnMul1 (a limb : ℕ) : ℕ × ℕ := (a * limb % base ^ t, a * limb / base ^ t)

/-- `mpn_addmul_1`. -/
def mpnAddmul1 (r a limb : ℕ) : ℕ × ℕ := ((r + a * limb) % base ^ t, (r + a * limb) / base ^ t)

/-- `mpn_add_1`. -/
def mpnAdd1 (a limb : ℕ) : ℕ × ℕ := ((a + limb) % base ^ t, (a + limb) / base ^ t)

/-- `mpn_tdiv_qr`: the quotient and the remainder. -/
def mpnTdivQr (a d : ℕ) : ℕ × ℕ := (a / d, a % d)

end Operations

section Values

variable {base t : ℕ}

/-- An integer fits in its limbs. -/
theorem lt_pow_mpzSize (two : 1 < base) (z : ℕ) : z < base ^ mpzSize base z :=
  Nat.lt_pow_succ_log_self two z

/-- A sum without a carry. -/
theorem mpnAddN_of_lt {a b : ℕ} (fits : a + b < base ^ t) : mpnAddN base t a b = (a + b, 0) := by
  rw [mpnAddN, Nat.mod_eq_of_lt fits, Nat.div_eq_of_lt fits]

/-- A sum with a carry. -/
theorem mpnAddN_of_le {a b : ℕ} (spills : base ^ t ≤ a + b) (twice : a + b < 2 * base ^ t) :
    mpnAddN base t a b = (a + b - base ^ t, 1) := by
  have rest : a + b - base ^ t < base ^ t := by omega
  have split : a + b = a + b - base ^ t + base ^ t * 1 := by omega
  rw [mpnAddN, split, Nat.add_mul_mod_self_left, Nat.mod_eq_of_lt rest,
    Nat.add_mul_div_left _ _ (by omega), Nat.div_eq_of_lt rest, mul_one, Nat.add_sub_cancel]

/-- A shift by one bit doubles. -/
theorem mpnLshift1_eq (a : ℕ) : mpnLshift1 base t a = mpnAddN base t a a := by
  rw [mpnLshift1, mpnAddN, two_mul]

/-- The sign of a comparison. -/
theorem mpnCmp_eq_zero {a b : ℕ} : mpnCmp a b = 0 ↔ a = b := by
  rw [mpnCmp]
  split <;> [omega; split <;> omega]

theorem mpnCmp_pos {a b : ℕ} : mpnCmp a b > 0 ↔ b < a := by
  rw [mpnCmp]
  split <;> [omega; split <;> omega]

theorem mpnCmp_nonneg {a b : ℕ} : mpnCmp a b ≥ 0 ↔ b ≤ a := by
  rw [mpnCmp]
  split <;> [omega; split <;> omega]

theorem mpnCmp_neg {a b : ℕ} : mpnCmp a b < 0 ↔ a < b := by
  rw [mpnCmp]
  split <;> [omega; split <;> omega]

/-- A difference with its borrow. -/
theorem mpnSubN_of_le {a b : ℕ} (order : b ≤ a) : (mpnSubN base t a b).1 = a - b := by
  rw [mpnSubN, if_pos order]

theorem mpnSubN_of_lt {a b : ℕ} (order : a < b) : (mpnSubN base t a b).1 = a + base ^ t - b := by
  rw [mpnSubN, if_neg (not_le.mpr order)]

end Values

end Pbc.Gmp
