import Mathlib.GroupTheory.SpecificGroups.Cyclic
import Mathlib.Algebra.Ring.Parity

/-!
# Doubles in cyclic groups of even order

In a cyclic group of even order `n` an element of order `d` is a double exactly when the
index `n / d` is even. Half the order kills the doubles and nothing else, and one less than
half the order kills hardly anything.
-/

namespace Pbc.Algebra

variable {G : Type*} [AddGroup G] [Finite G] [IsAddCyclic G] {P : G}

/-- A double is an even multiple of a generator, and conversely. -/
theorem exists_add_self_iff (even : Even (Nat.card G)) :
    (∃ Q, P = Q + Q) ↔ Even (Nat.card G / addOrderOf P) := by
  obtain ⟨g, generates⟩ := IsAddCyclic.exists_addMonoid_generator (α := G)
  have whole : addOrderOf g = Nat.card G := by
    apply addOrderOf_eq_card_of_forall_mem_zmultiples
    intro Q
    obtain ⟨k, rfl⟩ := generates Q
    exact AddSubgroup.nsmul_mem_zmultiples g k
  have index (k : ℕ) : Nat.card G / addOrderOf (k • g) = Nat.gcd (Nat.card G) k := by
    have positive : Nat.card G ≠ 0 := Nat.card_pos.ne'
    rw [addOrderOf_nsmul, whole, Nat.div_div_self (Nat.gcd_dvd_left _ _) positive]
  constructor
  · rintro ⟨Q, rfl⟩
    obtain ⟨k, rfl⟩ := generates Q
    change Even (Nat.card G / addOrderOf (k • g + k • g))
    rw [← add_nsmul, index, even_iff_two_dvd]
    exact Nat.dvd_gcd even.two_dvd ⟨k, (two_mul k).symm⟩
  · intro index'
    obtain ⟨k, rfl⟩ := generates P
    change Even (Nat.card G / addOrderOf (k • g)) at index'
    rw [index, even_iff_two_dvd] at index'
    obtain ⟨l, rfl⟩ := index'.trans (Nat.gcd_dvd_right _ _)
    refine ⟨l • g, ?_⟩
    change (2 * l) • g = _
    rw [two_mul, add_nsmul]

/-- Which divisors of an even number divide one less than its half. -/
private theorem dvd_pred_half_iff {d c half : ℕ} (positive : 0 < half)
    (halves : d * c = half + half) : (d ∣ half - 1 ↔ Even c) ↔ d = 1 ∨ (Odd c ∧ d ≠ 2) := by
  rcases Nat.even_or_odd c with even | odd
  · have coprime : d ∣ half - 1 → d = 1 := by
      intro divides
      obtain ⟨e, rfl⟩ := even
      have whole : half = d * e := by
        rw [mul_add] at halves
        omega
      have one : d ∣ half - (half - 1) := Nat.dvd_sub (whole ▸ dvd_mul_right d e) divides
      rwa [Nat.sub_sub_self positive, Nat.dvd_one] at one
    have single : d = 1 → d ∣ half - 1 := by
      rintro rfl
      exact one_dvd _
    have notOdd := Nat.not_odd_iff_even.mpr even
    tauto
  · have notEven := Nat.not_even_iff_odd.mpr odd
    have factor : Even d := (Nat.even_mul.mp ⟨half, halves⟩).resolve_right notEven
    obtain ⟨t, rfl⟩ := factor
    have whole : half = t * c := by
      rw [add_mul] at halves
      omega
    have two : t + t ∣ half - 1 ↔ t + t = 2 := by
      constructor
      · intro divides
        have below : t ∣ half - (half - 1) :=
          Nat.dvd_sub (whole ▸ dvd_mul_right t c) ((Nat.dvd_add_self_left.mpr dvd_rfl).trans divides)
        rw [Nat.sub_sub_self positive, Nat.dvd_one] at below
        rw [below]
      · intro equal
        obtain rfl : t = 1 := by omega
        obtain ⟨e, rfl⟩ := odd
        exact ⟨e, by omega⟩
    have notOne : t + t ≠ 1 := by omega
    tauto

/-- One less than half the order kills the doubles and nothing else exactly at zero and at
the elements of odd index whose order is not two. -/
theorem pred_half_nsmul_iff (even : Even (Nat.card G)) :
    (((Nat.card G - 1) / 2) • P = 0 ↔ ∃ Q, P = Q + Q) ↔
      P = 0 ∨ (Odd (Nat.card G / addOrderOf P) ∧ addOrderOf P ≠ 2) := by
  rw [exists_add_self_iff even, ← addOrderOf_dvd_iff_nsmul_eq_zero,
    ← AddMonoid.addOrderOf_eq_one_iff]
  have positive : 0 < Nat.card G := Nat.card_pos
  obtain ⟨c, product⟩ := addOrderOf_dvd_natCard P
  obtain ⟨half, halves⟩ := even
  have quotient : Nat.card G / addOrderOf P = c := by
    rw [product, Nat.mul_div_cancel_left c (addOrderOf_pos P)]
  have exponent : (Nat.card G - 1) / 2 = half - 1 := by omega
  rw [quotient, exponent]
  exact dvd_pred_half_iff (by omega) (product.symm.trans halves)

end Pbc.Algebra
