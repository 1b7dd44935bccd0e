import Mathlib.Algebra.Order.Group.Nat
import Mathlib.Data.ZMod.Basic
import Mathlib.Tactic.LinearCombination
import Mathlib.Tactic.Ring
import Pbc.Algebra.Numerals

/-!
# Montgomery rounds

A round adds a multiple of a digit and the multiple of the modulus that clears the
lowest digit, and shifts by one digit. `n` is the negative inverse of the modulus
in the base. After as many rounds as there are digits the sum is the product times
the inverse of the power of the base, below twice the modulus.
-/

namespace Pbc.Number

section Rounds

variable (base p n : ℕ)

/-- The multiple of the modulus that clears the lowest digit of `y + a b`. -/
def montQuotient (b a y : ℕ) : ℕ := (y % base + a * (b % base)) * n % base

/-- One round: the digit `a` of the first operand meets the second operand `b`. -/
def montRound (b a y : ℕ) : ℕ := (y + a * b + montQuotient base n b a y * p) / base

/-- The sum after the digits below `i` of `a`, from the sum `y`. -/
def montSum (a b y : ℕ) : ℕ → ℕ
  | 0 => y
  | i + 1 => montRound base p n b (a / base ^ i % base) (montSum a b y i)

end Rounds

section Values

variable {base p n : ℕ}

/-- The division of a round is exact. -/
theorem montRound_mul (inverse : n * p % base = base - 1) (positive : 0 < base) (b a y : ℕ) :
    base * montRound base p n b a y = y + a * b + montQuotient base n b a y * p := by
  refine Nat.mul_div_cancel' ((ZMod.natCast_eq_zero_iff _ _).mp ?_)
  have negative : (n : ZMod base) * p = -1 := by
    have cast := congrArg (Nat.cast : ℕ → ZMod base) inverse
    rw [ZMod.natCast_mod, Nat.cast_mul, Nat.cast_sub positive, ZMod.natCast_self] at cast
    simpa using cast
  have quotient : (montQuotient base n b a y : ZMod base) = (y + a * b) * n := by
    simp only [montQuotient, ZMod.natCast_mod, Nat.cast_mul, Nat.cast_add]
  push_cast
  rw [quotient]
  linear_combination ((y : ZMod base) + a * b) * negative

theorem montQuotient_lt (positive : 0 < base) (n b a y : ℕ) : montQuotient base n b a y < base :=
  Nat.mod_lt _ positive

/-- A round keeps the sum below twice the modulus. -/
theorem montRound_lt (positive : 0 < base) {b a y : ℕ} (digit : a < base) (operand : b < p)
    (sum : y < 2 * p) : montRound base p n b a y < 2 * p := by
  have first : a * b ≤ (base - 1) * p := Nat.mul_le_mul (by omega) operand.le
  have second : montQuotient base n b a y * p ≤ (base - 1) * p :=
    Nat.mul_le_mul_right p (Nat.le_sub_one_of_lt (montQuotient_lt positive n b a y))
  have total : base * (2 * p) = 2 * ((base - 1) * p) + 2 * p := by
    obtain ⟨k, rfl⟩ := Nat.exists_eq_add_of_lt positive
    rw [zero_add, Nat.add_sub_cancel]
    ring
  exact Nat.div_lt_of_lt_mul (by omega)

/-- Without a second operand a round divides the excess of the sum over the modulus. -/
theorem montRound_zero_lt (positive : 0 < base) {m y : ℕ} (sum : y < p * (base * m) + p) :
    montRound base p n 0 0 y < p * m + p := by
  have second : montQuotient base n 0 0 y * p ≤ (base - 1) * p :=
    Nat.mul_le_mul_right p (Nat.le_sub_one_of_lt (montQuotient_lt positive n 0 0 y))
  have total : base * (p * m + p) = p * (base * m) + ((base - 1) * p + p) := by
    obtain ⟨k, rfl⟩ := Nat.exists_eq_add_of_lt positive
    rw [zero_add, Nat.add_sub_cancel]
    ring
  exact Nat.div_lt_of_lt_mul (by omega)

/-- The sums, scaled back, count the digits of `a` that have been read. -/
theorem montSum_cast (inverse : n * p % base = base - 1) (positive : 0 < base) (a b y i : ℕ) :
    (base ^ i * montSum base p n a b y i : ZMod p) = y + (a % base ^ i : ℕ) * b := by
  induction i with
  | zero => simp [montSum, Nat.mod_one]
  | succ i ih =>
    have round := congrArg (Nat.cast : ℕ → ZMod p)
      (montRound_mul inverse positive b (a / base ^ i % base) (montSum base p n a b y i))
    push_cast at round
    rw [ZMod.natCast_self, mul_zero, add_zero] at round
    rw [montSum, Nat.mod_pow_succ]
    push_cast
    rw [pow_succ, mul_assoc, round, mul_add, ih]
    ring

theorem montSum_lt (positive : 0 < base) {a b : ℕ} (operand : b < p) (i : ℕ) :
    montSum base p n a b 0 i < 2 * p := by
  induction i with
  | zero =>
    show 0 < 2 * p
    omega
  | succ i ih => exact montRound_lt positive (Nat.mod_lt _ positive) operand ih

theorem montSum_zero_lt (positive : 0 < base) {y t : ℕ} (bound : y < p * base ^ t) (i : ℕ)
    (inside : i ≤ t) : montSum base p n 0 0 y i < p * base ^ (t - i) + p := by
  induction i with
  | zero => exact Nat.lt_add_right p bound
  | succ i ih =>
    have power : base ^ (t - i) = base * base ^ (t - (i + 1)) := by
      rw [← pow_succ']
      congr 1
      omega
    have sum := ih (by omega)
    rw [power] at sum
    rw [montSum, Nat.zero_div, Nat.zero_mod]
    exact montRound_zero_lt positive sum

/-- No sum with the product of its digit needs more than one digit above the `t` of the
modulus. -/
def MontFits (base p n t a b : ℕ) : Prop :=
  ∀ i < t, montSum base p n a b 0 i + a / base ^ i % base * b < base ^ (t + 1)

/-- A modulus that leaves some room at the top never needs the digit. -/
theorem MontFits.of_room (positive : 0 < base) {t a b : ℕ} (room : (base + 1) * p ≤ base ^ (t + 1))
    (operand : b < p) : MontFits base p n t a b := by
  intro i _
  have sum := montSum_lt (n := n) (a := a) positive operand i
  have product : a / base ^ i % base * b ≤ (base - 1) * p :=
    Nat.mul_le_mul (Nat.le_sub_one_of_lt (Nat.mod_lt _ positive)) operand.le
  have total : (base + 1) * p = (base - 1) * p + 2 * p := by
    rw [← Nat.add_mul]
    congr 1
    omega
  omega

/-- A sum, scaled back, is the product of the digits read and a multiple of the modulus. -/
theorem montSum_mul (inverse : n * p % base = base - 1) (positive : 0 < base) (a b i : ℕ) :
    ∃ m < base ^ i, base ^ i * montSum base p n a b 0 i = a % base ^ i * b + m * p := by
  induction i with
  | zero => exact ⟨0, by simp, by simp [montSum, Nat.mod_one]⟩
  | succ i ih =>
    obtain ⟨m, small, sum⟩ := ih
    set S := montSum base p n a b 0 i
    set u := montQuotient base n b (a / base ^ i % base) S
    have round := montRound_mul inverse positive b (a / base ^ i % base) S
    have digit : u < base := montQuotient_lt positive n b _ S
    refine ⟨m + base ^ i * u, ?_, ?_⟩
    · calc m + base ^ i * u < base ^ i + base ^ i * u := Nat.add_lt_add_right small _
        _ = base ^ i * (u + 1) := by ring
        _ ≤ base ^ i * base := Nat.mul_le_mul_left _ digit
        _ = base ^ (i + 1) := (pow_succ base i).symm
    · calc base ^ (i + 1) * montSum base p n a b 0 (i + 1)
          = base ^ i * (base * montRound base p n b (a / base ^ i % base) S) := by
            rw [pow_succ, mul_assoc, montSum]
        _ = base ^ i * S + base ^ i * (a / base ^ i % base * b + u * p) := by rw [round]; ring
        _ = (a % base ^ i + base ^ i * (a / base ^ i % base)) * b + (m + base ^ i * u) * p := by
            rw [sum]
            ring
        _ = a % base ^ (i + 1) * b + (m + base ^ i * u) * p := by rw [Nat.mod_pow_succ]

/-- The same condition on the operands alone: the multiple of the modulus that clears the lowest
digits of a partial product leaves room in the next sum. -/
def CarriesKept (base p t a b : ℕ) : Prop :=
  ∀ i < t, ∀ m < base ^ i, base ^ i ∣ a % base ^ i * b + m * p →
    a % base ^ (i + 1) * b + m * p < base ^ (t + 1 + i)

theorem montFits_iff_carriesKept (inverse : n * p % base = base - 1) (positive : 0 < base)
    (coprime : Nat.Coprime base p) {t a b : ℕ} :
    MontFits base p n t a b ↔ CarriesKept base p t a b := by
  have each (i : ℕ) : montSum base p n a b 0 i + a / base ^ i % base * b < base ^ (t + 1) ↔
      ∀ m < base ^ i, base ^ i ∣ a % base ^ i * b + m * p →
        a % base ^ (i + 1) * b + m * p < base ^ (t + 1 + i) := by
    obtain ⟨m, small, sum⟩ := montSum_mul inverse positive a b i
    have shifted : base ^ i * (montSum base p n a b 0 i + a / base ^ i % base * b) =
        a % base ^ (i + 1) * b + m * p := by
      rw [mul_add, sum, Nat.mod_pow_succ]
      ring
    have scaled : base ^ (t + 1 + i) = base ^ i * base ^ (t + 1) := by rw [pow_add, mul_comm]
    have room : montSum base p n a b 0 i + a / base ^ i % base * b < base ^ (t + 1) ↔
        a % base ^ (i + 1) * b + m * p < base ^ (t + 1 + i) := by
      rw [scaled, ← shifted]
      exact (Nat.mul_lt_mul_left (Nat.pow_pos positive)).symm
    rw [room]
    constructor
    · intro fits m' small' divides
      have same : m' = m := by
        have congruent : a % base ^ i * b + m' * p ≡ a % base ^ i * b + m * p [MOD base ^ i] := by
          rw [← sum]
          exact ((Nat.modEq_zero_iff_dvd.mpr divides).trans
            (Nat.modEq_zero_iff_dvd.mpr (dvd_mul_right _ _)).symm)
        have cancelled := (Nat.ModEq.add_left_cancel' _ congruent).cancel_right_of_coprime
          (Nat.Coprime.pow_left i coprime)
        exact Nat.ModEq.eq_of_lt_of_lt cancelled small' small
      rwa [same]
    · intro kept
      exact kept m small ⟨_, sum.symm⟩
  exact forall₂_congr fun i _ => each i

end Values

end Pbc.Number
