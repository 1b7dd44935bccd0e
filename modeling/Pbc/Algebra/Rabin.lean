import Mathlib.FieldTheory.Finite.Extension

/-!
# Irreducible polynomials of a finite field

An irreducible polynomial divides `X^(q^n) - X` exactly when its degree divides `n`. So a polynomial
of degree `n` that divides `X^(q^n) - X` is irreducible when it shares no factor with any
`X^(q^(n/p)) - X`, for `p` a prime factor of `n`.
-/

open Polynomial

namespace Pbc.Algebra

/-- A proper divisor of a number divides one of the largest proper divisors. -/
theorem exists_prime_dvd_div {d n : ℕ} (divides : d ∣ n) (proper : d ≠ n) :
    ∃ p, p.Prime ∧ p ∣ n ∧ d ∣ n / p := by
  obtain ⟨c, rfl⟩ := divides
  have more : c ≠ 1 := by
    rintro rfl
    exact proper (mul_one d).symm
  obtain ⟨p, prime, e, rfl⟩ := Nat.exists_prime_and_dvd more
  have product : d * (p * e) = p * (d * e) := by ring
  refine ⟨p, prime, ⟨d * e, product⟩, ?_⟩
  rw [product, Nat.mul_div_cancel_left _ prime.pos]
  exact dvd_mul_right d e

variable {F : Type*} [Field F] [Fintype F] {f : F[X]}

/-- An irreducible polynomial and the roots of its powers of the variable. -/
theorem dvd_frobenius_iff (irreducible : Irreducible f) (n : ℕ) :
    f ∣ X ^ Fintype.card F ^ n - X ↔ f.natDegree ∣ n := by
  rw [irreducible.natDegree_dvd_iff_dvd_X_pow_card_pow_sub_X, Nat.card_eq_fintype_card]

/-- The conditions on an irreducible polynomial. -/
theorem coprime_frobenius (irreducible : Irreducible f) {p : ℕ} (prime : p.Prime)
    (divides : p ∣ f.natDegree) : IsCoprime f (X ^ Fintype.card F ^ (f.natDegree / p) - X) := by
  rw [irreducible.coprime_iff_not_dvd, dvd_frobenius_iff irreducible]
  intro multiple
  have positive : 0 < f.natDegree / p := Nat.div_pos (Nat.le_of_dvd irreducible.natDegree_pos divides) prime.pos
  have bound := Nat.le_of_dvd positive multiple
  exact absurd (Nat.div_lt_self irreducible.natDegree_pos prime.one_lt) (not_lt.mpr bound)

/-- Rabin's criterion. -/
theorem irreducible_iff_frobenius (positive : 0 < f.natDegree) :
    Irreducible f ↔ f ∣ X ^ Fintype.card F ^ f.natDegree - X ∧ ∀ p, p.Prime → p ∣ f.natDegree →
      IsCoprime f (X ^ Fintype.card F ^ (f.natDegree / p) - X) := by
  constructor
  · intro irreducible
    refine ⟨(dvd_frobenius_iff irreducible _).mpr dvd_rfl, ?_⟩
    intro p prime divides
    exact coprime_frobenius irreducible prime divides
  · rintro ⟨splits, coprime⟩
    have nonzero : f ≠ 0 := by
      rintro rfl
      exact absurd positive (by rw [natDegree_zero]; exact lt_irrefl 0)
    have nonunit : ¬IsUnit f := fun unit => positive.ne' (natDegree_eq_zero_of_isUnit unit)
    obtain ⟨g, irreducible, divides⟩ := WfDvdMonoid.exists_irreducible_factor nonunit nonzero
    have degree := (dvd_frobenius_iff irreducible _).mp (divides.trans splits)
    have full : g.natDegree = f.natDegree := by
      by_contra proper
      obtain ⟨p, prime, factor, smaller⟩ := exists_prime_dvd_div degree proper
      have shared := (dvd_frobenius_iff irreducible _).mpr smaller
      exact irreducible.not_isUnit ((coprime p prime factor).isUnit_of_dvd' divides shared)
    exact (associated_of_dvd_of_natDegree_le divides nonzero full.ge).irreducible irreducible

end Pbc.Algebra
