import Pbc.Ecc.FTatepower
import Pbc.Gmp.Mpz
import Pbc.Number.PowerSum

/-!
# Parameters of type F

The curves of Barreto and Naehrig: the size `q` of the field, the trace `t` and the order `r` are
polynomials in a number `x` of either sign. The generator and the initialisation of the pairing
divide by `r` and by its square without looking at the remainder.
-/

open Pbc.Arith Pbc.Gmp Pbc.Number

namespace Pbc.Ecc

section Operations

/-- `tryminusx`. -/
def tryminusx (x : ℤ) : ℤ :=
  let q := x - 1
  let q := q * x
  let q := q * 36
  let q := q + 24
  let q := q * x
  let q := q - 6
  let q := q * x
  q + 1

/-- `tryplusx`. -/
def tryplusx (x : ℤ) : ℤ :=
  let q := x + 1
  let q := q * x
  let q := q * 36
  let q := q + 24
  let q := q * x
  let q := q + 6
  let q := q * x
  q + 1

/-- The numbers that `f_param_gen` tests. -/
structure FCandidate where
  q : ℤ
  t : ℤ
  r : ℤ
  deriving DecidableEq, Repr

/-- One try of `f_param_gen`, with `tryminusx` or `tryplusx`. -/
def fCandidate (tryx : ℤ → ℤ) (x : ℤ) : FCandidate :=
  let t := x * x
  let t := t * 6
  let t := t + 1
  let q := tryx x
  let r := q - t
  let r := r + 1
  ⟨q, t, r⟩

/-- Both numbers are taken for primes. -/
def FCandidate.accepted (c : FCandidate) : Bool := mpzProbabPrimeP c.q && mpzProbabPrimeP c.r

/-- The search of `f_param_gen`, from `x` on. -/
def fParamSearch : ℕ → ℤ → Option FCandidate
  | 0, _ => none
  | fuel + 1, x =>
    if (fCandidate tryminusx x).accepted then some (fCandidate tryminusx x)
    else if (fCandidate tryplusx x).accepted then some (fCandidate tryplusx x)
    else fParamSearch fuel (x + 1)

/-- The loop of `compute_trace_n`. -/
def computeTraceNLoop (q trace : ℤ) : ℕ → ℤ → ℤ → ℤ
  | 0, c1, _ => c1
  | steps + 1, c1, c2 =>
    let c0 := trace * c1
    let t0 := q * c2
    let c0 := c0 - t0
    computeTraceNLoop q trace steps c0 c1

/-- `compute_trace_n`. -/
def computeTraceN (q trace : ℤ) (n : ℕ) : ℤ := computeTraceNLoop q trace (n - 1) trace 2

/-- The divisions by `r` leave no remainder, and the sixth roots of unity are in the field. -/
structure FCandidate.Exact (c : FCandidate) : Prop where
  tateexp : c.r ∣ c.q ^ 4 - c.q ^ 2 + 1
  residue : c.q % 6 = 1
  twist : c.r * c.r ∣ c.q ^ 12 + 1 - computeTraceN c.q c.t 12

end Operations

section Trace

/-- The loop keeps two neighbouring sums of powers. -/
theorem computeTraceNLoop_eq (q trace : ℤ) (steps n : ℕ) :
    computeTraceNLoop q trace steps (powerSum q trace (n + 1)) (powerSum q trace n) =
      powerSum q trace (n + 1 + steps) := by
  induction steps generalizing n with
  | zero => rfl
  | succ steps ih =>
    rw [computeTraceNLoop, ← powerSum_add_two, ih, Nat.add_right_comm (n + 1), Nat.add_assoc (n + 1)]

/-- The trace over an extension. -/
theorem computeTraceN_eq (q trace : ℤ) {n : ℕ} (positive : 0 < n) :
    computeTraceN q trace n = powerSum q trace n := by
  have loop := computeTraceNLoop_eq q trace (n - 1) 0
  rwa [Nat.zero_add, Nat.add_sub_cancel' positive] at loop

end Trace

section Identities

theorem tryminusx_eq (x : ℤ) : tryminusx x = 36 * x ^ 4 - 36 * x ^ 3 + 24 * x ^ 2 - 6 * x + 1 := by
  simp only [tryminusx]
  ring

theorem tryplusx_eq (x : ℤ) : tryplusx x = 36 * x ^ 4 + 36 * x ^ 3 + 24 * x ^ 2 + 6 * x + 1 := by
  simp only [tryplusx]
  ring

/-- The two signs of a number. -/
theorem fCandidate_minus (x : ℤ) : fCandidate tryminusx x = fCandidate tryplusx (-x) := by
  simp only [fCandidate, tryminusx_eq, tryplusx_eq, FCandidate.mk.injEq]
  refine ⟨?_, ?_, ?_⟩ <;> ring

/-- The order of the curve, from the field and the trace. -/
theorem fCandidate_order (tryx : ℤ → ℤ) (x : ℤ) :
    (fCandidate tryx x).r = (fCandidate tryx x).q + 1 - (fCandidate tryx x).t := by
  simp only [fCandidate]
  ring

theorem fCandidate_order_eq (x : ℤ) :
    (fCandidate tryplusx x).r = 36 * x ^ 4 + 36 * x ^ 3 + 18 * x ^ 2 + 6 * x + 1 := by
  simp only [fCandidate, tryplusx_eq]
  ring

theorem fCandidate_q_eq (x : ℤ) :
    (fCandidate tryplusx x).q = 36 * x ^ 4 + 36 * x ^ 3 + 24 * x ^ 2 + 6 * x + 1 :=
  tryplusx_eq x

/-- The embedding degree is 12. -/
theorem fCandidate_dvd (x : ℤ) : (fCandidate tryplusx x).r ∣
    (fCandidate tryplusx x).q ^ 4 - (fCandidate tryplusx x).q ^ 2 + 1 := by
  refine ⟨46656 * x ^ 12 + 139968 * x ^ 11 + 241056 * x ^ 10 + 272160 * x ^ 9 + 225504 * x ^ 8 +
    138672 * x ^ 7 + 65448 * x ^ 6 + 23112 * x ^ 5 + 6264 * x ^ 4 + 1188 * x ^ 3 + 174 * x ^ 2 +
    6 * x + 1, ?_⟩
  rw [fCandidate_order_eq, fCandidate_q_eq]
  ring

theorem fCandidate_exact (x : ℤ) : (fCandidate tryplusx x).Exact where
  tateexp := fCandidate_dvd x
  residue := by
    have sixth : (fCandidate tryplusx x).q = 6 * (6 * x ^ 4 + 6 * x ^ 3 + 4 * x ^ 2 + x) + 1 := by
      rw [fCandidate_q_eq]
      ring
    omega
  twist := by
    have roots : (fCandidate tryplusx x).r ∣ (fCandidate tryplusx x).q ^ 6 + 1 := by
      have factor : (fCandidate tryplusx x).q ^ 6 + 1 =
          ((fCandidate tryplusx x).q ^ 4 - (fCandidate tryplusx x).q ^ 2 + 1) *
            ((fCandidate tryplusx x).q ^ 2 + 1) := by ring
      rw [factor]
      exact (fCandidate_dvd x).mul_right _
    rw [fCandidate_order] at roots
    have square := sq_dvd_extensionOrder _ _ roots
    rwa [← fCandidate_order, sq, extensionOrder, ← computeTraceN_eq _ _ (by decide)] at square

end Identities

/-- For every number and both signs the divisions are exact. -/
theorem fParamGen_exact (x : ℤ) :
    (fCandidate tryminusx x).Exact ∧ (fCandidate tryplusx x).Exact := by
  constructor
  · rw [fCandidate_minus]
    exact fCandidate_exact (-x)
  · exact fCandidate_exact x

/-- The parameters that the search ends with are exact. -/
theorem fParamSearch_exact {fuel : ℕ} {x : ℤ} {c : FCandidate}
    (found : fParamSearch fuel x = some c) : c.accepted ∧ c.Exact := by
  induction fuel generalizing x with
  | zero => cases found
  | succ fuel ih =>
    rw [fParamSearch] at found
    split at found
    · next accepted =>
      cases found
      refine ⟨accepted, ?_⟩
      rw [fCandidate_minus]
      exact fCandidate_exact (-x)
    · split at found
      · next accepted =>
        cases found
        exact ⟨accepted, fCandidate_exact x⟩
      · exact ih found

/-- The size of the field and the order are positive, whatever the number. -/
theorem fCandidate_pos (x : ℤ) :
    0 < (fCandidate tryplusx x).q ∧ 0 < (fCandidate tryplusx x).r := by
  rw [fCandidate_q_eq, fCandidate_order_eq]
  constructor
  · nlinarith [sq_nonneg (6 * x ^ 2 + 3 * x), sq_nonneg (3 * x + 1), sq_nonneg x]
  · have squares : 36 * x ^ 4 + 36 * x ^ 3 + 18 * x ^ 2 + 6 * x + 1 =
        (6 * x ^ 2 + 3 * x) ^ 2 + (3 * x + 1) ^ 2 := by ring
    have nonzero : 3 * x + 1 ≠ 0 := by omega
    rw [squares]
    positivity

theorem fParamSearch_pos {fuel : ℕ} {x : ℤ} {c : FCandidate}
    (found : fParamSearch fuel x = some c) : 0 < c.q ∧ 0 < c.r := by
  induction fuel generalizing x with
  | zero => cases found
  | succ fuel ih =>
    rw [fParamSearch] at found
    split at found
    · cases found
      rw [fCandidate_minus]
      exact fCandidate_pos (-x)
    · split at found
      · cases found
        exact fCandidate_pos x
      · exact ih found

section Pairing

variable {F : Type*} [Field F] [Fintype F] [DecidableEq F] [FpMethods F] {beta : F}
  {alpha : FqData beta}

/-- With generated parameters the powering of the pairing is the one by `(q^12 - 1) / r`. -/
theorem fTatepower_of_search {fuel : ℕ} {x : ℤ} {c : FCandidate}
    (found : fParamSearch fuel x = some c) (card : Fintype.card F = c.q.toNat)
    (nonresidue : ¬IsSquare beta)
    (irreducible : Irreducible (Polynomial.X ^ 6 + Polynomial.C alpha))
    {f : Polymod (fPoly alpha)} (nonzero : f ≠ 0) :
    ∃ p, pairingInitFParam c.q.toNat c.r.toNat alpha = .ok p ∧
      fTatepower p f = .ok (f ^ ((c.q.toNat ^ 12 - 1) / c.r.toNat)) := by
  obtain ⟨-, exact⟩ := fParamSearch_exact found
  obtain ⟨positive, order⟩ := fParamSearch_pos found
  have size : (c.q.toNat : ℤ) = c.q := Int.toNat_of_nonneg positive.le
  have index : (c.r.toNat : ℤ) = c.r := Int.toNat_of_nonneg order.le
  have coprime : Nat.Coprime c.q.toNat 6 := by
    have residue : c.q.toNat % 6 = 1 := by
      have sixth := exact.residue
      omega
    rw [Nat.Coprime, Nat.gcd_comm, Nat.gcd_rec, residue]
    decide
  have divides : c.r.toNat ∣ c.q.toNat ^ 4 - c.q.toNat ^ 2 + 1 := by
    have ordered : c.q.toNat ^ 2 ≤ c.q.toNat ^ 4 := Nat.pow_le_pow_right (by omega) (by decide)
    zify [ordered]
    rw [size, index]
    exact exact.tateexp
  exact fTatepower_exact card coprime nonresidue irreducible divides nonzero

end Pairing

end Pbc.Ecc
