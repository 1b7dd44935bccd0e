import Mathlib.Data.List.Count
import Mathlib.Data.Nat.Bitwise
import Mathlib.Data.Nat.Log
import Mathlib.Tactic.Positivity
import Pbc.Algebra.Numerals

/-!
# Leading bits of a natural number

A loop that reads the bits of a number from the top keeps the number made of the
bits read so far. These lemmas give that number at the start, at one more bit
and at the end, and count the bits that are set.
-/

namespace Pbc.Number

/-- Above the leading bit nothing but that bit remains. -/
theorem shiftRight_log2 {n : ℕ} (positive : n ≠ 0) : n >>> n.log2 = 1 := by
  rw [Nat.shiftRight_eq_div_pow]
  have lower : 2 ^ n.log2 ≤ n := Nat.log2_self_le positive
  have upper : n < 2 ^ n.log2 * 2 := Nat.pow_succ 2 n.log2 ▸ Nat.lt_log2_self
  exact Nat.div_eq_of_lt_le (by omega) (by omega)

/-- One more bit is appended to the bits above it. -/
theorem shiftRight_eq_append (n m : ℕ) :
    n >>> m = 2 * (n >>> (m + 1)) + (n.testBit m).toNat := by
  rw [Nat.shiftRight_succ, Nat.testBit_eq_decide_div_mod_eq, ← Nat.shiftRight_eq_div_pow]
  generalize n >>> m = k
  rcases Nat.mod_two_eq_zero_or_one k with even | odd
  · simp [even]
    omega
  · simp [odd]
    omega

/-- An odd number is determined by the bits above the last one. -/
theorem odd_eq_append {n : ℕ} (odd : Odd n) : n = 2 * (n >>> 1) + 1 := by
  rw [Nat.shiftRight_one]
  obtain ⟨k, rfl⟩ := odd
  omega

/-- Every shorter prefix is a proper one. -/
theorem shiftRight_pos {n m : ℕ} (positive : n ≠ 0) (bounded : m ≤ n.log2) : 0 < n >>> m := by
  rw [Nat.shiftRight_eq_div_pow]
  exact Nat.div_pos ((Nat.pow_le_pow_right (by norm_num) bounded).trans
    (Nat.log2_self_le positive)) (by positivity)

/-- A proper prefix of an odd number, doubled and increased, stays below it. -/
theorem shiftRight_bounds {n m : ℕ} (odd : Odd n) (bounded : m + 2 ≤ n.log2) :
    0 < n >>> (m + 2) ∧ 2 * (n >>> (m + 2)) + 1 < n := by
  have positive : n ≠ 0 := by
    rintro rfl
    exact Nat.not_odd_zero odd
  have above := shiftRight_pos positive bounded
  have half : n >>> (m + 2) ≤ n >>> 2 := by
    rw [Nat.add_comm, Nat.shiftRight_add]
    exact Nat.shiftRight_le _ _
  have whole := odd_eq_append odd
  have next := shiftRight_eq_append n 1
  exact ⟨above, by omega⟩

/-- Every prefix without the last bit, doubled and increased, is at most the number. -/
theorem shiftRight_succ_bounds {n m : ℕ} (odd : Odd n) (bounded : m + 1 ≤ n.log2) :
    0 < n >>> (m + 1) ∧ 2 * (n >>> (m + 1)) + 1 ≤ n := by
  have whole := odd_eq_append odd
  have half : n >>> (m + 1) ≤ n >>> 1 := by
    rw [Nat.add_comm, Nat.shiftRight_add]
    exact Nat.shiftRight_le _ _
  exact ⟨shiftRight_pos odd.pos.ne' bounded, by omega⟩

theorem log2_pos_of_two_le {n : ℕ} (two : 2 ≤ n) : 0 < n.log2 := by
  have nonzero : n ≠ 0 := by omega
  exact (Nat.le_log2 nonzero).mpr (by simpa using two)

/-- The number of bits set among the lowest `k`. -/
def ones (n k : ℕ) : ℕ := (List.range k).countP n.testBit

@[simp] theorem ones_zero (n : ℕ) : ones n 0 = 0 := rfl

theorem ones_succ (n k : ℕ) : ones n (k + 1) = ones n k + (n.testBit k).toNat := by
  rw [ones, List.range_succ, List.countP_append]
  cases bit : n.testBit k <;> simp [ones, bit]

theorem ones_le (n k : ℕ) : ones n k ≤ k :=
  List.countP_le_length.trans_eq List.length_range

/-- The leading bit is set. -/
theorem testBit_log2 {n : ℕ} (positive : n ≠ 0) : n.testBit n.log2 = true := by
  rw [Nat.testBit_eq_decide_div_mod_eq, ← Nat.shiftRight_eq_div_pow, shiftRight_log2 positive]
  rfl

/-- All of the lowest bits are set when the prefix has all of them. -/
theorem ones_eq_self_iff {n k : ℕ} : ones n k = k ↔ ∀ i < k, n.testBit i = true := by
  have full := List.countP_eq_length (p := n.testBit) (l := List.range k)
  simp only [List.length_range, List.mem_range] at full
  exact full

/-- All bits are set exactly in the numbers that precede a power of two. -/
theorem ones_log2_eq_iff {n : ℕ} (positive : n ≠ 0) :
    ones n (n.log2 + 1) = n.log2 + 1 ↔ ∃ k, n + 1 = 2 ^ k := by
  have bounded : n < 2 ^ (n.log2 + 1) := Nat.lt_log2_self
  rw [ones_eq_self_iff]
  constructor
  · intro full
    refine ⟨n.log2 + 1, ?_⟩
    have equal : n = 2 ^ (n.log2 + 1) - 1 := by
      apply Nat.eq_of_testBit_eq
      intro i
      rw [Nat.testBit_two_pow_sub_one]
      by_cases inside : i < n.log2 + 1
      · simp only [full i inside, inside, decide_true]
      · have above : n < 2 ^ i :=
          bounded.trans_le (Nat.pow_le_pow_right (by norm_num) (by omega))
        simp only [inside, decide_false, Nat.testBit_lt_two_pow above]
    omega
  · rintro ⟨k, equal⟩ i inside
    have full : n = 2 ^ k - 1 := by omega
    have lower : 2 ^ n.log2 ≤ n := Nat.log2_self_le positive
    have shorter : n.log2 < k := by
      apply (Nat.pow_lt_pow_iff_right (a := 2) (by norm_num)).mp
      omega
    rw [full, Nat.testBit_two_pow_sub_one, decide_eq_true_iff]
    omega

end Pbc.Number
