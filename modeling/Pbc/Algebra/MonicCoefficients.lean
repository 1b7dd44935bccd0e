import Mathlib.Algebra.Polynomial.Monic
import Mathlib.Tactic.Ring

/-!
# Coefficients of a monic polynomial

A monic polynomial by the coefficients behind its leading one, highest first.
-/

open Polynomial

namespace Pbc.Algebra

variable {R : Type*} [CommRing R]

/-- Further coefficients behind a polynomial. -/
noncomputable def hornerFrom (p : R[X]) (l : List R) : R[X] := l.foldl (fun p c => p * X + C c) p

/-- The monic polynomial with these coefficients behind the leading one. -/
noncomputable def monicOf (l : List R) : R[X] := hornerFrom 1 l

theorem hornerFrom_cons (p : R[X]) (c : R) (l : List R) :
    hornerFrom p (c :: l) = hornerFrom (p * X + C c) l := rfl

theorem hornerFrom_append (p : R[X]) (l l' : List R) :
    hornerFrom p (l ++ l') = hornerFrom (hornerFrom p l) l' := List.foldl_append

theorem hornerFrom_singleton (p : R[X]) (c : R) : hornerFrom p [c] = p * X + C c := rfl

theorem hornerFrom_monic [Nontrivial R] {p : R[X]} (monic : p.Monic) (l : List R) :
    (hornerFrom p l).Monic ∧ (hornerFrom p l).natDegree = p.natDegree + l.length := by
  induction l generalizing p with
  | nil => exact ⟨monic, rfl⟩
  | cons c l ih =>
    have degree : (p * X).natDegree = p.natDegree + 1 := natDegree_mul_X monic.ne_zero
    have small : (C c).degree < (p * X).degree := by
      have monic' : (p * X).Monic := monic.mul monic_X
      rw [degree_eq_natDegree monic'.ne_zero, degree]
      exact lt_of_le_of_lt degree_C_le (Nat.cast_pos.mpr (Nat.succ_pos _))
    have monic' : (p * X + C c).Monic := (monic.mul monic_X).add_of_left small
    have degree' : (p * X + C c).natDegree = p.natDegree + 1 := by
      rw [natDegree_add_eq_left_of_degree_lt small, degree]
    obtain ⟨result, length⟩ := ih monic'
    rw [hornerFrom_cons, List.length_cons]
    exact ⟨result, by rw [length, degree']; omega⟩

theorem natDegree_monicOf [Nontrivial R] (l : List R) : (monicOf l).natDegree = l.length := by
  rw [monicOf, (hornerFrom_monic monic_one l).2, natDegree_one, Nat.zero_add]

end Pbc.Algebra
