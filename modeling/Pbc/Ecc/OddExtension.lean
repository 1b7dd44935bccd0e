import Pbc.Algebra.Frobenius
import Pbc.Ecc.DParam

/-!
# Values over an odd extension

The target group of the pairings of embedding degree `2 n` with `n` odd: pairs over the
extension of `F_q` of degree `n`, with a square root of a nonresidue of `F_q`. Frobenius acts
on the coefficients, its `n`th power conjugates, and the powers `q^n - 1` have norm one.
-/

open Pbc.Arith Pbc.Gmp Pbc.Algebra

namespace Pbc.Ecc

variable {F : Type*} [Field F] {n : ℕ} {poly : Fin n → F} {nqr : F}

/-- The variable of the extension. -/
def extensionVariable (poly : Fin n → F) : Polymod poly := ⟨fun i => if (i : ℕ) = 1 then 1 else 0⟩

section Coefficients

theorem addConstant_eq (e : Polymod poly) (x : F) :
    addConstant e x = e + algebraMap F (Polymod poly) x := by
  apply Polymod.ext
  funext i
  rw [Polymod.coeff_add, Polymod.algebraMap_eq]
  by_cases first : (i : ℕ) = 0
  · simp only [addConstant, elementFieldToPolymod, if_pos first]
  · simp only [addConstant, elementFieldToPolymod, if_neg first, add_zero]

/-- The class of the variable. -/
theorem quotient_extensionVariable (large : 1 < n) :
    (extensionVariable poly).quotient = root poly := by
  rw [Polymod.quotient, value, Finset.sum_eq_single ⟨1, large⟩]
  · simp [extensionVariable]
  · intro i _ other
    have different : (i : ℕ) ≠ 1 := fun one => other (Fin.ext one)
    simp [extensionVariable, different]
  · exact fun absent => absurd (Finset.mem_univ _) absent

/-- An element is the value of its coefficients at the variable. -/
theorem polymod_eq_sum_extension (large : 1 < n) (e : Polymod poly) :
    e = ∑ i, algebraMap F _ (e.coeff i) * extensionVariable poly ^ (i : ℕ) := by
  apply Polymod.quotient_injective
  simp only [← Polymod.quotientHom_apply, map_sum, map_mul, map_pow]
  simp only [Polymod.quotientHom_apply, quotient_extensionVariable large, Polymod.algebraMap_eq,
    Polymod.quotient_fieldToPolymod]
  rfl

/-- The multiples of `q^n - 1` send the scalars of the extension to one. -/
theorem scalar_pow_of_dvd [Fintype F] [irreducible : Fact (Irreducible (monicPoly poly))] {e : ℕ}
    (divides : Fintype.card F ^ n - 1 ∣ e) (c : Polymod poly) (nonzero : c ≠ 0) : c ^ e = 1 := by
  have card : Fintype.card (Polymod poly) = Fintype.card F ^ n := Polymod.card_polymod
  obtain ⟨k, rfl⟩ := divides
  rw [pow_mul, ← card, FiniteField.pow_card_sub_one_eq_one c nonzero, one_pow]

/-- Frobenius raises the variable and keeps the coefficients. -/
theorem polymod_pow_card [Fintype F] (large : 1 < n) (e : Polymod poly) :
    e ^ Fintype.card F =
      ∑ i, algebraMap F _ (e.coeff i) * (extensionVariable poly ^ Fintype.card F) ^ (i : ℕ) := by
  have frobenius (w : Polymod poly) :
      w ^ Fintype.card F = FiniteField.frobeniusAlgHom F _ w := by
    rw [FiniteField.coe_frobeniusAlgHom]
  rw [frobenius, frobenius]
  conv_lhs => rw [polymod_eq_sum_extension large e]
  simp only [map_sum, map_mul, map_pow, AlgHom.commutes]

end Coefficients

section Values

variable [Fintype F]

theorem dGt_pow_card (two : (2 : F) ≠ 0) (nonresidue : ¬IsSquare nqr) (f : DGt poly nqr) :
    f ^ Fintype.card F = ⟨f.re ^ Fintype.card F, -f.im ^ Fintype.card F⟩ :=
  quadratic_pow_card (L := Polymod poly) two nonresidue f

omit [Fintype F] in
theorem two_ne_zero_extension [Fact (Irreducible (monicPoly poly))] (two : (2 : F) ≠ 0) :
    (2 : Polymod poly) ≠ 0 := by
  intro zero
  apply two
  rw [← map_ofNat (algebraMap F (Polymod poly)) 2] at zero
  exact (map_eq_zero _).mp zero

variable [irreducible : Fact (Irreducible (monicPoly poly))] (two : (2 : F) ≠ 0)
  (nonresidue : ¬IsSquare nqr) (odd : Odd n)

omit [Fintype F] in
include nonresidue in
theorem residue_ne_zero : elementFieldToPolymod poly nqr ≠ 0 := by
  intro zero
  have constant : algebraMap F (Polymod poly) nqr = 0 := zero
  apply nonresidue
  rw [(map_eq_zero _).mp constant]
  exact IsSquare.zero

include two nonresidue odd

/-- The stored nonresidue of `F_q` is one of an extension of odd degree. -/
theorem odd_extension_nonresidue :
    Fact (∀ r : Polymod poly, r ^ 2 ≠ elementFieldToPolymod poly nqr + 0 * r) :=
  ⟨fun r => by
    rw [zero_mul, add_zero]
    exact sq_ne_of_odd_extension two nonresidue odd Polymod.card_polymod r⟩

theorem odd_extension_pow_card (f : DGt poly nqr) : f ^ Fintype.card F ^ n = star f := by
  refine quadratic_pow_card_pow (L := Polymod poly) two nonresidue odd (fun x => ?_) f
  have card : Fintype.card (Polymod poly) = Fintype.card F ^ n := Polymod.card_polymod
  rw [← card]
  exact FiniteField.pow_card x

theorem odd_extension_pow_order {f : DGt poly nqr} (nonzero : f ≠ 0) :
    f ^ (Fintype.card F ^ (2 * n) - 1) = 1 := by
  have : Fact (∀ r : Polymod poly, r ^ 2 ≠ elementFieldToPolymod poly nqr + 0 * r) :=
    odd_extension_nonresidue two nonresidue odd
  have whole : f ^ Fintype.card F ^ (2 * n) = f := by
    rw [two_mul, pow_add, pow_mul, odd_extension_pow_card two nonresidue odd,
      odd_extension_pow_card two nonresidue odd, star_star]
  have split : Fintype.card F ^ (2 * n) = Fintype.card F ^ (2 * n) - 1 + 1 :=
    (Nat.sub_add_cancel (Nat.one_le_pow _ _ Fintype.card_pos)).symm
  rw [split, pow_succ] at whole
  exact mul_right_cancel₀ nonzero (whole.trans (one_mul f).symm)

/-- The powers `q^n - 1` have norm one. -/
theorem odd_extension_norm {f : DGt poly nqr} (nonzero : f ≠ 0) (m : ℕ) :
    (f ^ ((Fintype.card F ^ n - 1) * m)).re * (f ^ ((Fintype.card F ^ n - 1) * m)).re -
      (f ^ ((Fintype.card F ^ n - 1) * m)).im * (f ^ ((Fintype.card F ^ n - 1) * m)).im *
        elementFieldToPolymod poly nqr = 1 := by
  have order : (f ^ (Fintype.card F ^ (2 * n) - 1)) ^ m = 1 := by
    rw [odd_extension_pow_order two nonresidue odd nonzero, one_pow]
  have square := Nat.sq_sub_sq (Fintype.card F ^ n) 1
  rw [one_pow, ← pow_mul, mul_comm n 2] at square
  have product : f ^ ((Fintype.card F ^ n - 1) * m) * star (f ^ ((Fintype.card F ^ n - 1) * m)) = 1 := by
    rw [← odd_extension_pow_card two nonresidue odd, ← pow_succ', ← pow_mul, ← order, ← pow_mul,
      square]
    congr 1
    ring
  have real := congrArg QuadraticAlgebra.re product
  rw [QuadraticAlgebra.re_mul, QuadraticAlgebra.re_star, QuadraticAlgebra.im_star,
    QuadraticAlgebra.re_one] at real
  linear_combination real

end Values

end Pbc.Ecc
