import Mathlib.Data.Nat.Prime.Infinite
import Mathlib.Data.Int.Sqrt
import Pbc.Number.Bits

/-!
# Multiple precision integers

The queries of the integer library that the pairing loops make, on nonnegative
integers.
-/

namespace Pbc.Gmp

/-- `mpz_sizeinbase(n, 2)`; the answer for zero is one. -/
def mpzSizeinbase2 (n : ℕ) : ℕ := n.log2 + 1

/-- `mpz_tstbit`. -/
abbrev mpzTstbit (n m : ℕ) : Bool := n.testBit m

/-- `mpz_popcount`. -/
def mpzPopcount (n : ℕ) : ℕ := Number.ones n (mpzSizeinbase2 n)

/-- The position of the lowest bit, looked for in the lowest `fuel` bits. -/
def scanBits : ℕ → ℕ → ℕ
  | 0, _ => 0
  | fuel + 1, n => if n % 2 = 1 then 0 else scanBits fuel (n / 2) + 1

/-- `mpz_scan1(n, 0)` of a nonzero integer. -/
def mpzScan1 (n : ℕ) : ℕ := scanBits n.log2 n

/-- `mpz_get_ui`, with 64 bits. -/
def mpzGetUi (z : ℤ) : ℕ := z.natAbs % 2 ^ 64

/-- `mpz_perfect_square_p` of a nonnegative integer. -/
def mpzPerfectSquareP (z : ℤ) : Bool := Int.sqrt z * Int.sqrt z = z

/-- `mpz_probab_prime_p`, taken as exact. -/
def mpzProbabPrimeP (z : ℤ) : Bool := z.natAbs.Prime

/-- `mpz_nextprime` of a nonnegative integer: the least prime above it. -/
def mpzNextprime (z : ℤ) : ℤ := Nat.find (Nat.exists_infinite_primes (z.toNat + 1))

/-- `mpz_powm`, for a nonnegative exponent. -/
def mpzPowm (b e m : ℤ) : ℤ := b ^ e.toNat % m

/-- The value of an `int` expression. -/
def intWrap (z : ℤ) : ℤ := z.bmod (2 ^ 32)

theorem intWrap_eq {z : ℤ} (lower : 0 ≤ z) (upper : z < 2 ^ 31) : intWrap z = z :=
  Int.bmod_eq_of_le (by omega) (by omega)

/-- A value that wraps is not positive. -/
theorem intWrap_nonpos {z : ℤ} (lower : 2 ^ 31 ≤ z) (upper : z ≤ 2 ^ 32) : intWrap z ≤ 0 := by
  rw [intWrap, Int.bmod]
  omega

/-- The primality test of a natural number. -/
theorem mpzProbabPrimeP_natCast (n : ℕ) : mpzProbabPrimeP n = true ↔ n.Prime := by
  rw [mpzProbabPrimeP, Int.natAbs_natCast, decide_eq_true_iff]

/-- The least prime above a natural number. -/
theorem mpzNextprime_natCast (p : ℕ) : ∃ p' : ℕ, mpzNextprime p = p' ∧ p'.Prime ∧ p < p' ∧
    ∀ l, l.Prime → p < l → p' ≤ l := by
  refine ⟨Nat.find (Nat.exists_infinite_primes ((p : ℤ).toNat + 1)), rfl, ?_⟩
  obtain ⟨above, prime⟩ := Nat.find_spec (Nat.exists_infinite_primes ((p : ℤ).toNat + 1))
  refine ⟨prime, above, fun l prime' more => ?_⟩
  exact Nat.find_min' _ ⟨more, prime'⟩

/-- The next prime, with no prime between. -/
theorem mpzNextprime_eq {p p' : ℕ} (prime : p'.Prime) (above : p < p')
    (none : ∀ l, p < l → l < p' → ¬l.Prime) : mpzNextprime p = p' := by
  obtain ⟨l, next, prime', above', least⟩ := mpzNextprime_natCast p
  have below := least p' prime above
  rcases lt_or_eq_of_le below with between | rfl
  · exact absurd prime' (none l above' between)
  · exact next

/-- The lowest bit splits off the even part. -/
theorem mpzScan1_spec {n : ℕ} (nonzero : n ≠ 0) :
    2 ^ mpzScan1 n * (n / 2 ^ mpzScan1 n) = n ∧ n / 2 ^ mpzScan1 n % 2 = 1 := by
  have spec (fuel : ℕ) : ∀ n < 2 ^ (fuel + 1), n ≠ 0 →
      2 ^ scanBits fuel n * (n / 2 ^ scanBits fuel n) = n ∧ n / 2 ^ scanBits fuel n % 2 = 1 := by
    induction fuel with
    | zero =>
      intro n bound nonzero
      have one : n = 1 := by omega
      subst one
      decide
    | succ fuel ih =>
      intro n bound nonzero
      rw [scanBits]
      split
      · next odd => simpa using odd
      · next even =>
        obtain ⟨product, odd⟩ := ih (n / 2) (by rw [pow_succ] at bound; omega) (by omega)
        rw [pow_succ', ← Nat.div_div_eq_div_mul, mul_assoc, product]
        exact ⟨by omega, odd⟩
  exact spec n.log2 n Nat.lt_log2_self nonzero

/-- `mpz_popcount` counts the leading bit and the bits below it. -/
theorem mpzPopcount_eq {n : ℕ} (positive : n ≠ 0) :
    mpzPopcount n = Number.ones n n.log2 + 1 := by
  rw [mpzPopcount, mpzSizeinbase2, Number.ones_succ, Number.testBit_log2 positive]
  rfl

/-- A loop that starts below the leading bit. -/
theorem mpzSizeinbase2_sub_two {n : ℕ} (two : 2 ≤ n) : mpzSizeinbase2 n - 2 + 1 = n.log2 := by
  have long := Number.log2_pos_of_two_le two
  rw [mpzSizeinbase2]
  omega

end Pbc.Gmp
