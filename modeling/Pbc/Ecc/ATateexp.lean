import Mathlib.NumberTheory.LegendreSymbol.QuadraticChar.Basic
import Pbc.Algebra.Frobenius
import Pbc.Ecc.AParam

/-!
# The type A final powering

The power `q - 1` is the conjugate over the element, which has norm one; the
cofactor is even, so the Lucas ladder gives the rest of the exponent. The routine
works in the coordinates of its three objects.
-/

open Pbc.Arith Pbc.Gmp Pbc.Algebra

namespace Pbc.Ecc

section Objects

/-- The three distinct objects of `a_tateexp`. -/
@[ext]
structure TateObjects (F : Type*) [Field F] where
  out : FiData F
  inn : FiData F
  temp : FiData F

variable {F : Type*} [Field F] [FpMethods F]

/-- The loop of `lucas_odd` on its objects: `v0`, `v1` are the coordinates of `out`,
and `t0`, `t1` those of `temp`. -/
def lucasOddLoopObjects (cofactor : ℕ) : ℕ → TateObjects F → TateObjects F
  | 0, o =>
      let o := { o with out := ⟨o.out.re, o.out.re * o.out.im⟩ }
      let o := { o with out := ⟨o.out.re, o.out.im - o.temp.im⟩ }
      let o := { o with out := ⟨FieldMethods.square o.out.re, o.out.im⟩ }
      { o with out := ⟨o.out.re - o.temp.re, o.out.im⟩ }
  | j + 1, o =>
      if mpzTstbit cofactor (j + 1) then
        let o := { o with out := ⟨o.out.re * o.out.im, o.out.im⟩ }
        let o := { o with out := ⟨o.out.re - o.temp.im, o.out.im⟩ }
        let o := { o with out := ⟨o.out.re, FieldMethods.square o.out.im⟩ }
        let o := { o with out := ⟨o.out.re, o.out.im - o.temp.re⟩ }
        lucasOddLoopObjects cofactor j o
      else
        let o := { o with out := ⟨o.out.re, o.out.re * o.out.im⟩ }
        let o := { o with out := ⟨o.out.re, o.out.im - o.temp.im⟩ }
        let o := { o with out := ⟨FieldMethods.square o.out.re, o.out.im⟩ }
        let o := { o with out := ⟨o.out.re - o.temp.re, o.out.im⟩ }
        lucasOddLoopObjects cofactor j o

/-- `lucas_odd` on its objects; `in0`, `in1` are the coordinates of `in`. -/
def lucasOddObjects (o : TateObjects F) (cofactor : ℕ) : TateObjects F :=
  let o := { o with temp := ⟨2, o.temp.im⟩ }
  let o := { o with temp := ⟨o.temp.re, o.inn.re + o.inn.re⟩ }
  let o := { o with out := ⟨o.temp.re, o.out.im⟩ }
  let o := { o with out := ⟨o.out.re, o.temp.im⟩ }
  let o := lucasOddLoopObjects cofactor (mpzSizeinbase2 cofactor - 1) o
  let o := { o with inn := ⟨o.out.re * o.temp.im, o.inn.im⟩ }
  let o := { o with out := ⟨o.out.re, o.out.im + o.out.im⟩ }
  let o := { o with out := ⟨o.out.re, o.out.im - o.inn.re⟩ }
  let o := { o with temp := ⟨o.temp.re, o.temp.im * o.temp.im⟩ }
  let o := { o with temp := ⟨o.temp.re, o.temp.im - o.temp.re⟩ }
  let o := { o with temp := ⟨o.temp.re, o.temp.im - o.temp.re⟩ }
  let o := { o with out := ⟨o.out.re, zpDiv o.out.im o.temp.im⟩ }
  let o := { o with out := ⟨zpHalve o.out.re, o.out.im⟩ }
  { o with out := ⟨o.out.re, o.out.im * o.inn.im⟩ }

/-- `a_tateexp` on its objects. -/
def aTateexpObjects (o : TateObjects F) (cofactor : ℕ) : TateObjects F :=
  let o := { o with temp := fiInvert o.inn }
  let o := { o with inn := ⟨o.inn.re, -o.inn.im⟩ }
  let o := { o with inn := fiMul o.inn o.temp }
  lucasOddObjects o cofactor

/-- The loop keeps `in` and `temp`, and `out` holds the two terms. -/
private theorem lucasOddLoopObjects_eq (cofactor j : ℕ) (o : TateObjects F) :
    lucasOddLoopObjects cofactor j o = { o with
      out := ⟨(lucasLoop o.temp.re o.temp.im cofactor j o.out.re o.out.im).1,
        (lucasLoop o.temp.re o.temp.im cofactor j o.out.re o.out.im).2⟩ } := by
  induction j generalizing o with
  | zero => rfl
  | succ j ih =>
    cases bit : mpzTstbit cofactor (j + 1) with
    | true =>
      rw [lucasOddLoopObjects, lucasLoop, bit, if_pos rfl, if_pos rfl]
      exact ih _
    | false =>
      rw [lucasOddLoopObjects, lucasLoop, bit, if_neg Bool.false_ne_true,
        if_neg Bool.false_ne_true]
      exact ih _

/-- The temporaries overwrite no value that is still to be read. -/
theorem aTateexpObjects_out (o : TateObjects F) (cofactor : ℕ) :
    (aTateexpObjects o cofactor).out = aTateexp o.inn cofactor := by
  simp only [aTateexpObjects, lucasOddObjects, lucasOddLoopObjects_eq]
  rfl

end Objects

section Power

variable {F : Type*} [Field F] [Fintype F]

/-- In a field of `q = 3 mod 4` elements minus one is not a square. -/
theorem neg_one_nonresidue (residue : Fintype.card F % 4 = 3) : ¬IsSquare (-1 : F) := by
  rw [FiniteField.isSquare_neg_one_iff]
  exact not_not_intro residue

theorem two_ne_zero_of_residue (residue : Fintype.card F % 4 = 3) : (2 : F) ≠ 0 := by
  intro zero
  have even := FiniteField.even_card_of_char_two (F := F)
    (ringChar.eq_iff.mpr (CharTwo.of_one_ne_zero_of_two_eq_zero one_ne_zero zero))
  omega

theorem sq_ne_neg_one (residue : Fintype.card F % 4 = 3) (r : F) : r ^ 2 ≠ -1 + 0 * r := by
  intro square
  apply neg_one_nonresidue residue
  exact ⟨r, by linear_combination -square⟩

/-- The power `q` conjugates `F_q(i)`. -/
theorem fi_pow_card (residue : Fintype.card F % 4 = 3) (f : FiData F) :
    f ^ Fintype.card F = star f := by
  have conjugate := quadratic_pow_card_pow (L := F) (two_ne_zero_of_residue residue)
    (neg_one_nonresidue residue) odd_one (fun x => by rw [pow_one, FiniteField.pow_card]) f
  rwa [pow_one] at conjugate

omit [Fintype F] in
/-- The conjugate over the element has norm one. -/
theorem norm_conjugate_mul_inv [Fact (∀ r : F, r ^ 2 ≠ -1 + 0 * r)] {f : FiData F}
    (nonzero : f ≠ 0) :
    (star f * f⁻¹).re * (star f * f⁻¹).re + (star f * f⁻¹).im * (star f * f⁻¹).im = 1 := by
  have conjugate : star f ≠ 0 := star_ne_zero.mpr nonzero
  have inverse : star f * f⁻¹ * star (star f * f⁻¹) = 1 := by
    have swap : star (f⁻¹) = (star f)⁻¹ := by
      apply eq_inv_of_mul_eq_one_left
      rw [← star_mul, mul_inv_cancel₀ nonzero, star_one]
    rw [star_mul', star_star, swap]
    field_simp
  have norm := congrArg QuadraticAlgebra.re inverse
  simp only [QuadraticAlgebra.re_mul, QuadraticAlgebra.re_star, QuadraticAlgebra.im_star,
    QuadraticAlgebra.re_one] at norm ⊢
  linear_combination norm

/-- `a_tateexp` raises to the power `(q - 1) h`. -/
theorem aTateexp_eq [FpMethods F] (residue : Fintype.card F % 4 = 3) {h : ℕ} (even : Even h)
    {f : FiData F} (nonzero : f ≠ 0) : aTateexp f h = f ^ ((Fintype.card F - 1) * h) := by
  have nonsquare : Fact (∀ r : F, r ^ 2 ≠ -1 + 0 * r) := ⟨sq_ne_neg_one residue⟩
  have unitary : f ^ (Fintype.card F - 1) = star f * f⁻¹ := by
    have split : Fintype.card F = Fintype.card F - 1 + 1 := by omega
    rw [eq_mul_inv_iff_mul_eq₀ nonzero, ← pow_succ, ← split, fi_pow_card residue]
  have conjugate : (⟨f.re, -f.im⟩ : FiData F) = star f := by
    ext
    · simp
    · simp
  rw [aTateexp, fiInvert_eq nonzero, fiMul_eq, conjugate,
    lucasOdd_eq (two_ne_zero_of_residue residue) (norm_conjugate_mul_inv nonzero) even,
    pow_mul, unitary]

end Power

section Exact

variable {F : Type*} [Field F] [Fintype F] [FpMethods F]

/-- The final powering gives `f^((q^2-1)/r)` for every nonzero `f`, whatever the
objects held before. -/
theorem aTateexp_exact {q r h : ℕ} (card : Fintype.card F = q) (residue : q % 4 = 3)
    (even : Even h) (odd : Odd r) (cofactor : r * h = q + 1) (out temp : FiData F)
    {f : FiData F} (nonzero : f ≠ 0) :
    (aTateexpObjects ⟨out, f, temp⟩ h).out = f ^ ((q ^ 2 - 1) / r) := by
  subst card
  have exponent : (Fintype.card F ^ 2 - 1) / r = (Fintype.card F - 1) * h := by
    have factor : Fintype.card F ^ 2 - 1 = r * ((Fintype.card F - 1) * h) := by
      rw [mul_left_comm, cofactor, mul_comm, ← Nat.sq_sub_sq, one_pow]
    rw [factor, Nat.mul_div_cancel_left _ odd.pos]
  rw [aTateexpObjects_out, exponent]
  exact aTateexp_eq residue even nonzero

private instance primeEleven : Fact (Nat.Prime 11) := ⟨by decide⟩

theorem aTateexp_exact_eleven :
    (aTateexpObjects ⟨0, (⟨2, 3⟩ : FiData (ZMod 11)), 0⟩ 4).out = ⟨2, 3⟩ ^ ((11 ^ 2 - 1) / 3) :=
  aTateexp_exact (ZMod.card 11) (by decide) (by decide) (by decide) (by decide) 0 0 (by decide)

end Exact

end Pbc.Ecc
