import Mathlib.FieldTheory.Finite.Basic
import Mathlib.Data.Nat.Squarefree

/-!
# Generators of a finite field

An element whose `n`-th power is one generates a group of order `n` unless it lies in a proper
subgroup of powers. The powers by cofactors of `n` tell exactly which divisors of `n` its order
misses, and a test by composite divisors overlooks subgroups that a test by primes finds.
-/

namespace Pbc.Algebra

section Index

variable {G : Type*} [Monoid G] {n d : ℕ} {x : G}

/-- The part of the exponent `n` that the order of an element misses. -/
noncomputable def missedPart (n : ℕ) (x : G) : ℕ := n / orderOf x

theorem missedPart_mul_orderOf (power : x ^ n = 1) : missedPart n x * orderOf x = n :=
  Nat.div_mul_cancel (orderOf_dvd_of_pow_eq_one power)

theorem missedPart_dvd (power : x ^ n = 1) : missedPart n x ∣ n :=
  ⟨orderOf x, (missedPart_mul_orderOf power).symm⟩

/-- The power by a cofactor is one exactly when the order misses the divisor. -/
theorem pow_div_eq_one_iff (positive : 0 < n) (power : x ^ n = 1) (divides : d ∣ n) :
    x ^ (n / d) = 1 ↔ d ∣ missedPart n x := by
  obtain ⟨c, rfl⟩ := divides
  have product := missedPart_mul_orderOf power
  have apart : 0 < d := Nat.pos_of_mul_pos_right positive
  have order : 0 < orderOf x := orderOf_pos_iff.mpr (isOfFinOrder_iff_pow_eq_one.mpr ⟨_, positive, power⟩)
  rw [Nat.mul_div_cancel_left c apart, ← orderOf_dvd_iff_pow_eq_one]
  constructor
  · rintro ⟨e, rfl⟩
    refine ⟨e, Nat.eq_of_mul_eq_mul_right order ?_⟩
    rw [product]
    ring
  · rintro ⟨e, missed⟩
    refine ⟨e, Nat.eq_of_mul_eq_mul_left apart ?_⟩
    rw [← product, missed]
    ring

/-- An element has the full order exactly when its order misses nothing. -/
theorem orderOf_eq_iff_missedPart (positive : 0 < n) (power : x ^ n = 1) :
    orderOf x = n ↔ missedPart n x = 1 := by
  have product := missedPart_mul_orderOf power
  constructor
  · intro full
    rw [missedPart, full, Nat.div_self positive]
  · intro none
    rwa [none, one_mul] at product

end Index

section Field

/-- The powers of an element are all nonzero elements. -/
def Generates {M : Type*} [MonoidWithZero M] (x : M) : Prop := ∀ y : M, y ≠ 0 → ∃ k : ℕ, x ^ k = y

variable {F : Type*} [Field F] [Fintype F] {x : F}

/-- Generators are the elements of the full order. -/
theorem generates_iff_orderOf (nonzero : x ≠ 0) :
    Generates x ↔ orderOf x = Fintype.card F - 1 := by
  classical
  have units : orderOf (Units.mk0 x nonzero) = orderOf x := orderOf_units.symm
  have card : Nat.card Fˣ = Fintype.card F - 1 := by
    rw [Nat.card_eq_fintype_card, Fintype.card_units]
  rw [← units, ← card, ← Nat.card_zpowers, Subgroup.card_eq_iff_eq_top]
  constructor
  · intro generates
    refine (Subgroup.eq_top_iff' _).mpr fun u => ?_
    obtain ⟨k, power⟩ := generates u u.ne_zero
    exact ⟨k, Units.ext (by simpa using power)⟩
  · intro full y nonzero'
    have member : Units.mk0 y nonzero' ∈ Subgroup.zpowers (Units.mk0 x nonzero) :=
      full ▸ Subgroup.mem_top _
    obtain ⟨k, power⟩ := mem_powers_iff_mem_zpowers.mpr member
    exact ⟨k, by simpa using congrArg Units.val power⟩

open Classical in
/-- An exponent of a generator for an element. -/
noncomputable def dlog {M : Type*} [Monoid M] (g y : M) : ℕ :=
  if known : ∃ k : ℕ, g ^ k = y then known.choose else 0

theorem Generates.pow_dlog {M : Type*} [MonoidWithZero M] {g y : M} (generates : Generates g)
    (nonzero : y ≠ 0) : g ^ dlog g y = y := by
  rw [dlog, dif_pos (generates y nonzero)]
  exact (generates y nonzero).choose_spec

/-- A generator of a field of more than two elements is a unit. -/
theorem Generates.ne_zero (generates : Generates x) (more : 2 < Fintype.card F) : x ≠ 0 := by
  classical
  rintro rfl
  have few : ({0, 1} : Finset F).card < (Finset.univ : Finset F).card := by
    rw [Finset.card_univ]
    exact lt_of_le_of_lt Finset.card_le_two more
  obtain ⟨y, -, other⟩ := Finset.exists_mem_notMem_of_card_lt_card few
  rw [Finset.mem_insert, Finset.mem_singleton, not_or] at other
  obtain ⟨k, power⟩ := generates y other.1
  cases k with
  | zero => exact other.2 (power.symm.trans (pow_zero 0))
  | succ k => exact other.1 (power.symm.trans (zero_pow (Nat.succ_ne_zero k)))

/-- Exponents of a generator count modulo the number of units. -/
theorem Generates.pow_eq_pow_iff (generates : Generates x) (nonzero : x ≠ 0) {a b : ℕ} :
    x ^ a = x ^ b ↔ a ≡ b [MOD Fintype.card F - 1] := by
  have units : orderOf (Units.mk0 x nonzero) = orderOf x := orderOf_units.symm
  rw [← (generates_iff_orderOf nonzero).mp generates, ← units, ← pow_eq_pow_iff_modEq, Units.ext_iff,
    Units.val_pow_eq_pow_val, Units.val_pow_eq_pow_val, Units.val_mk0]

/-- Some element has a given part missed. -/
theorem exists_missedPart {d : ℕ} (divides : d ∣ Fintype.card F - 1) :
    ∃ x : F, x ≠ 0 ∧ missedPart (Fintype.card F - 1) x = d := by
  classical
  obtain ⟨g, generates⟩ := IsCyclic.exists_generator (α := Fˣ)
  have positive : 0 < Fintype.card F - 1 := Nat.sub_pos_of_lt Fintype.one_lt_card
  have order : orderOf g = Fintype.card F - 1 := by
    rw [orderOf_eq_card_of_forall_mem_zpowers generates, Nat.card_eq_fintype_card,
      Fintype.card_units]
  refine ⟨((g ^ d : Fˣ) : F), Units.ne_zero _, ?_⟩
  rw [missedPart, orderOf_units, orderOf_pow, order, Nat.gcd_eq_right divides]
  exact Nat.div_div_self divides positive.ne'

end Field

section Rough

/-- The product of the prime factors above a bound. -/
def roughPart (bound n : ℕ) : ℕ := ∏ l ∈ n.primeFactors with bound < l, l

variable {bound n p : ℕ}

theorem roughPart_dvd : roughPart bound n ∣ n :=
  (Finset.prod_dvd_prod_of_subset _ _ _ (Finset.filter_subset _ _)).trans (Nat.prod_primeFactors_dvd n)

/-- A number without small prime factors is its own rough part. -/
theorem roughPart_eq_self (squarefree : Squarefree n)
    (rough : ∀ l, l.Prime → l ∣ n → bound < l) : roughPart bound n = n := by
  rw [roughPart, Finset.filter_true_of_mem fun l factor =>
    rough l (Nat.prime_of_mem_primeFactors factor) (Nat.dvd_of_mem_primeFactors factor)]
  exact Nat.prod_primeFactors_of_squarefree squarefree

/-- A small prime factor does not change the rough part. -/
theorem roughPart_mul (prime : p.Prime) (positive : n ≠ 0) (small : p ≤ bound) :
    roughPart bound (p * n) = roughPart bound n := by
  rw [roughPart, roughPart, Nat.primeFactors_mul prime.ne_zero positive, prime.primeFactors,
    Finset.filter_union, Finset.filter_singleton, if_neg (by omega), Finset.empty_union]

/-- The rough part divides another number exactly when the large prime factors do. -/
theorem roughPart_dvd_iff {m : ℕ} :
    roughPart bound n ∣ m ↔ ∀ l, l.Prime → l ∣ n → n ≠ 0 → bound < l → l ∣ m := by
  constructor
  · intro divides l prime factor positive large
    refine (Finset.dvd_prod_of_mem (fun l => l) ?_).trans divides
    exact Finset.mem_filter.mpr ⟨Nat.mem_primeFactors.mpr ⟨prime, factor, positive⟩, large⟩
  · intro factors
    refine Finset.prod_primes_dvd m (fun l member => ?_) (fun l member => ?_)
    all_goals
      obtain ⟨factor, large⟩ := Finset.mem_filter.mp member
      obtain ⟨prime, divides, positive⟩ := Nat.mem_primeFactors.mp factor
    · exact prime.prime
    · exact factors l prime divides positive large

end Rough

end Pbc.Algebra
