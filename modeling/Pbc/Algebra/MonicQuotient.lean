import Mathlib.Algebra.Polynomial.SpecificDegree
import Mathlib.FieldTheory.KummerPolynomial
import Mathlib.RingTheory.AdjoinRoot
import Pbc.Algebra.Numerals

/-!
# Coefficient vectors modulo a monic polynomial

The classes modulo a monic polynomial of degree `n` are the vectors of `n`
coefficients. `value` reads a vector as the class of its polynomial; it is
injective, additive, and multiplies by the variable by a shift and one
reduction.
-/

open Polynomial

namespace Pbc.Algebra

variable {R : Type*} [CommRing R] {n : ℕ}

/-- The polynomial with the given lower coefficients. -/
noncomputable def coeffPoly (c : Fin n → R) : R[X] := ∑ i : Fin n, C (c i) * X ^ (i : ℕ)

theorem coeff_coeffPoly (c : Fin n → R) (i : Fin n) : (coeffPoly c).coeff i = c i := by
  simp [coeffPoly, coeff_C_mul, coeff_X_pow, Fin.val_inj]

/-- The monic polynomial of degree `n` with the given lower coefficients. -/
noncomputable def monicPoly (m : Fin n → R) : R[X] := X ^ n + coeffPoly m

theorem degree_coeffPoly_lt (c : Fin n → R) : (coeffPoly c).degree < n :=
  degree_sum_fin_lt c

theorem monicPoly_monic (m : Fin n → R) : (monicPoly m).Monic :=
  monic_X_pow_add (degree_coeffPoly_lt m)

theorem degree_monicPoly [Nontrivial R] (m : Fin n → R) : (monicPoly m).degree = n := by
  rw [monicPoly, degree_add_eq_left_of_degree_lt, degree_X_pow]
  rw [degree_X_pow]
  exact degree_coeffPoly_lt m

variable {m : Fin n → R}

/-- The variable modulo the polynomial. -/
noncomputable abbrev root (m : Fin n → R) : AdjoinRoot (monicPoly m) :=
  AdjoinRoot.root (monicPoly m)

/-- The class of a vector of coefficients. -/
noncomputable def value (m c : Fin n → R) : AdjoinRoot (monicPoly m) :=
  ∑ i : Fin n, AdjoinRoot.of (monicPoly m) (c i) * root m ^ (i : ℕ)

theorem value_eq_mk (c : Fin n → R) : value m c = AdjoinRoot.mk (monicPoly m) (coeffPoly c) := by
  simp [value, coeffPoly, root]

theorem value_injective (m : Fin n → R) : Function.Injective (value m) := by
  intro c d same
  nontriviality R
  rw [value_eq_mk, value_eq_mk, AdjoinRoot.mk_eq_mk] at same
  have equal : coeffPoly c = coeffPoly d := by
    by_contra different
    refine (monicPoly_monic m).not_dvd_of_degree_lt (sub_ne_zero.mpr different) ?_ same
    rw [degree_monicPoly]
    exact (degree_sub_le _ _).trans_lt (max_lt (degree_coeffPoly_lt c) (degree_coeffPoly_lt d))
  funext i
  rw [← coeff_coeffPoly c, equal, coeff_coeffPoly]

theorem value_surjective [Nontrivial R] (m : Fin n → R) : Function.Surjective (value m) := by
  intro z
  obtain ⟨p, rfl⟩ := AdjoinRoot.mk_surjective z
  have degree : (p %ₘ monicPoly m).degree < n := by
    simpa [degree_monicPoly] using degree_modByMonic_lt p (monicPoly_monic m)
  have remainder : coeffPoly (fun i : Fin n => (p %ₘ monicPoly m).coeff i) = p %ₘ monicPoly m := by
    ext i
    by_cases inside : i < n
    · exact coeff_coeffPoly _ ⟨i, inside⟩
    · have above : (n : WithBot ℕ) ≤ i := by exact_mod_cast not_lt.mp inside
      rw [coeff_eq_zero_of_degree_lt ((degree_coeffPoly_lt _).trans_le above),
        coeff_eq_zero_of_degree_lt (degree.trans_le above)]
  refine ⟨fun i => (p %ₘ monicPoly m).coeff i, ?_⟩
  rw [value_eq_mk, remainder, AdjoinRoot.mk_eq_mk]
  refine ⟨-(p /ₘ monicPoly m), ?_⟩
  linear_combination modByMonic_add_div p (monicPoly m)

theorem value_add (c d : Fin n → R) : value m (c + d) = value m c + value m d := by
  simp [value, add_mul, Finset.sum_add_distrib]

theorem value_neg (c : Fin n → R) : value m (-c) = -value m c := by
  simp [value]

theorem value_sub (c d : Fin n → R) : value m (c - d) = value m c - value m d := by
  rw [sub_eq_add_neg, value_add, value_neg, sub_eq_add_neg]

theorem value_mul_const (a : R) (c : Fin n → R) :
    value m (fun i => c i * a) = AdjoinRoot.of (monicPoly m) a * value m c := by
  simp only [value, map_mul, Finset.mul_sum]
  exact Finset.sum_congr rfl fun i _ => by ring

/-- The first power of the variable that is reduced. -/
theorem variable_pow_eq : root m ^ n = value m (-m) := by
  rw [value_neg, eq_neg_iff_add_eq_zero, value_eq_mk, root, ← AdjoinRoot.mk_X, ← map_pow,
    ← map_add]
  exact AdjoinRoot.mk_self

/-- The coefficient with an index, zero above the degree. -/
def coeffAt (c : Fin n → R) (i : ℕ) : R := if inside : i < n then c ⟨i, inside⟩ else 0

theorem value_eq_sum_range (c : Fin n → R) :
    value m c =
      ∑ i ∈ Finset.range n, AdjoinRoot.of (monicPoly m) (coeffAt c i) * root m ^ i := by
  rw [value, ← Fin.sum_univ_eq_sum_range
    (fun i => AdjoinRoot.of (monicPoly m) (coeffAt c i) * root m ^ i)]
  exact Finset.sum_congr rfl fun i _ => by rw [coeffAt, dif_pos i.isLt]

/-- Multiplication by the variable: a shift, and the leading coefficient times
the first reduced power. -/
theorem value_shift (c : Fin n → R) :
    value m (fun i => if (i : ℕ) = 0 then 0 else coeffAt c (i - 1)) +
        AdjoinRoot.of (monicPoly m) (coeffAt c (n - 1)) * value m (-m) =
      root m * value m c := by
  cases n with
  | zero => simp [value, coeffAt]
  | succ k =>
    rw [← variable_pow_eq, value_eq_sum_range c, value, Fin.sum_univ_succ, Finset.mul_sum,
      Finset.sum_range_succ]
    simp only [Fin.val_zero, if_true, map_zero, zero_mul, zero_add, Fin.val_succ,
      Nat.succ_ne_zero, if_false, Nat.succ_sub_one]
    rw [Fin.sum_univ_eq_sum_range
      (fun i => AdjoinRoot.of (monicPoly m) (coeffAt c i) * root m ^ (i + 1))]
    congr 1
    · exact Finset.sum_congr rfl fun i _ => by ring
    · simp only [pow_succ]
      ring

/-- A cubic without a root is irreducible. -/
theorem irreducible_monicPoly_three {F : Type*} [Field F] {m : Fin 3 → F}
    (rootless : ∀ x, x ^ 3 + (m 0 + m 1 * x + m 2 * x ^ 2) ≠ 0) : Irreducible (monicPoly m) := by
  have degree : (monicPoly m).natDegree = 3 := natDegree_eq_of_degree_eq_some (degree_monicPoly m)
  apply irreducible_of_degree_le_three_of_not_isRoot
  · rw [degree]
    decide
  · intro x root
    apply rootless x
    have value := root.eq_zero
    rw [monicPoly, coeffPoly, Fin.sum_univ_three] at value
    simpa using value

/-- A binomial of prime degree without a root is irreducible. -/
theorem irreducible_monicPoly_five {F : Type*} [Field F] {c : F} (rootless : ∀ x, x ^ 5 ≠ c) :
    Irreducible (monicPoly ![-c, 0, 0, 0, 0]) := by
  have binomial : monicPoly ![-c, 0, 0, 0, 0] = X ^ 5 - C c := by
    rw [monicPoly, coeffPoly, Fin.sum_univ_five]
    simp [sub_eq_add_neg]
  rw [binomial]
  exact X_pow_sub_C_irreducible_of_prime Nat.prime_five rootless

end Pbc.Algebra
