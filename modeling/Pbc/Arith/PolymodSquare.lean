import Pbc.Algebra.Frobenius
import Pbc.Arith.Poly
import Pbc.Arith.Pow

/-!
# The square test of polynomial extensions

The test raises an element to half the order of the unit group and compares the power with one. By
Euler's criterion that is right for the units. Zero is a square, but its power is zero.
-/

open Pbc.Algebra

namespace Pbc.Arith

section Operations

variable {F : Type} [CommRing F] [DecidableEq F] {n : ℕ} {poly : Fin n → F}

/-- `polymod_is0`. -/
def polymodIs0 (e : Polymod poly) : Bool :=
  (List.range n).all fun i => coeffAt e.coeff i = 0

/-- `polymod_is1`. -/
def polymodIs1 (e : Polymod poly) : Bool :=
  if coeffAt e.coeff 0 ≠ 1 then false
  else (List.range' 1 (n - 1)).all fun i => coeffAt e.coeff i = 0

/-- `polymod_is_sqr`, in an extension whose `order` is that of the base to the power of the
degree. -/
def polymodIsSqr [Fintype F] [FieldMethods F] (e : Polymod poly) : Except Exit Bool := do
  let z := Fintype.card F ^ n - 1
  let z := z / 2
  let e0 ← elementPowMpz 0 e z
  return polymodIs1 e0

theorem polymodIs0_iff (e : Polymod poly) : polymodIs0 e = true ↔ e = 0 := by
  rw [polymodIs0, List.all_eq_true]
  constructor
  · intro zero
    ext i
    have coefficient := zero i (List.mem_range.mpr i.isLt)
    rw [decide_eq_true_iff, coeffAt, dif_pos i.isLt] at coefficient
    rw [Polymod.coeff_zero]
    exact coefficient
  · rintro rfl i member
    rw [decide_eq_true_iff, coeffAt]
    split
    · exact Polymod.coeff_zero _
    · rfl

omit [DecidableEq F] in
/-- The coefficients of one. -/
theorem coeffAt_one (poly : Fin n → F) (positive : 0 < n) (i : ℕ) :
    coeffAt (1 : Polymod poly).coeff i = if i = 0 then 1 else 0 := by
  have coefficient (k : Fin n) : (1 : Polymod poly).coeff k = if (k : ℕ) = 0 then ((1 : ℤ) : F) else 0 :=
    rfl
  rw [coeffAt]
  split
  · rw [coefficient, Int.cast_one]
  · next outside => rw [if_neg (by omega)]

theorem polymodIs1_iff (positive : 0 < n) (e : Polymod poly) : polymodIs1 e = true ↔ e = 1 := by
  constructor
  · intro accepted
    rw [polymodIs1] at accepted
    split at accepted
    · exact absurd accepted Bool.false_ne_true
    · next constant =>
      rw [not_not] at constant
      rw [List.all_eq_true] at accepted
      ext i
      have value := coeffAt_one poly positive i
      rw [coeffAt, dif_pos i.isLt] at value
      rw [value]
      split
      · next first =>
        rw [coeffAt, dif_pos positive] at constant
        rw [← constant]
        exact congrArg e.coeff (Fin.ext first)
      · next later =>
        have coefficient := accepted i (List.mem_range'_1.mpr (by omega))
        rwa [decide_eq_true_iff, coeffAt, dif_pos i.isLt] at coefficient
  · rintro rfl
    rw [polymodIs1, if_neg (by rw [coeffAt_one poly positive, if_pos rfl, not_not]), List.all_eq_true]
    intro i member
    have later := (List.mem_range'_1.mp member).1
    rw [decide_eq_true_iff, coeffAt_one poly positive, if_neg (by omega)]

end Operations

section Values

variable {F : Type} [Field F] [Fintype F] [DecidableEq F] [FieldMethods F] {n : ℕ}
  {poly : Fin n → F}

omit [Fintype F] [DecidableEq F] [FieldMethods F] in
/-- An irreducible polynomial has positive degree. -/
theorem degree_pos_of_irreducible (poly : Fin n → F) [irreducible : Fact (Irreducible (monicPoly poly))] : 0 < n := by
  have degree := irreducible.out.degree_pos
  rw [degree_monicPoly] at degree
  exact_mod_cast degree

/-- The test compares a power with one. -/
theorem polymodIsSqr_eq (positive : 0 < n) (e : Polymod poly) :
    polymodIsSqr e = .ok (decide (e ^ ((Fintype.card F ^ n - 1) / 2) = 1)) := by
  have answer := Bool.eq_iff_iff.mpr ((polymodIs1_iff positive (e ^ ((Fintype.card F ^ n - 1) / 2))).trans
    decide_eq_true_iff.symm)
  rw [← answer, polymodIsSqr]
  simp only [elementPowMpz_ok, bind, Except.bind, pure, Except.pure]

omit [DecidableEq F] [FieldMethods F] in
/-- Half the order of the unit group of an extension of odd order. -/
theorem half_order (poly : Fin n → F) [Fact (Irreducible (monicPoly poly))] (two : (2 : F) ≠ 0) :
    (Fintype.card F ^ n - 1) / 2 = Fintype.card (Polymod poly) / 2 ∧
      0 < (Fintype.card F ^ n - 1) / 2 := by
  have odd : Fintype.card F % 2 = 1 := FiniteField.odd_card_of_char_ne_two (ringChar_ne_two two)
  have power : Fintype.card F ^ n % 2 = 1 := Nat.odd_iff.mp ((Nat.odd_iff.mpr odd).pow)
  have large : 1 < Fintype.card F ^ n :=
    Nat.one_lt_pow (degree_pos_of_irreducible poly).ne' Fintype.one_lt_card
  rw [Polymod.card_polymod]
  omega

/-- The test is right exactly on the nonzero elements. -/
theorem polymodIsSqr_exact_iff [Fact (Irreducible (monicPoly poly))] (two : (2 : F) ≠ 0)
    (e : Polymod poly) :
    (∃ res, polymodIsSqr e = .ok res ∧ (res = true ↔ IsSquare e)) ↔ e ≠ 0 := by
  obtain ⟨half, large⟩ := half_order poly two
  have positive : 0 < n := degree_pos_of_irreducible poly
  have answer := polymodIsSqr_eq positive e
  constructor
  · rintro ⟨res, run, correct⟩ zero
    obtain rfl := Except.ok.inj (answer.symm.trans run)
    have accepted := correct.mpr (zero ▸ IsSquare.zero)
    rw [decide_eq_true_iff, zero, zero_pow large.ne'] at accepted
    exact zero_ne_one accepted
  · intro nonzero
    have two' : (2 : Polymod poly) ≠ 0 := by
      intro zero
      have image : algebraMap F (Polymod poly) 2 = 0 := by rw [map_ofNat, zero]
      exact two ((map_eq_zero (algebraMap F (Polymod poly))).mp image)
    have euler := FiniteField.isSquare_iff (ringChar_ne_two two') nonzero
    refine ⟨_, answer, ?_⟩
    rw [decide_eq_true_iff, half, euler]

/-- The cubic of the examples. -/
private abbrev squareCubic : Fin 3 → ZMod 5 := ![1, 1, 0]

private theorem squareCubic_irreducible : Irreducible (monicPoly squareCubic) :=
  irreducible_monicPoly_three (by decide)

theorem polymodIsSqr_exact_small : ∃ _ : Fact (Irreducible (monicPoly (![1, 1, 0] : Fin 3 → ZMod 5))),
    (∃ res, polymodIsSqr (⟨![2, 0, 1]⟩ : Polymod (![1, 1, 0] : Fin 3 → ZMod 5)) = .ok res ∧
      (res = true ↔ IsSquare (⟨![2, 0, 1]⟩ : Polymod (![1, 1, 0] : Fin 3 → ZMod 5)))) ↔
    (⟨![2, 0, 1]⟩ : Polymod (![1, 1, 0] : Fin 3 → ZMod 5)) ≠ 0 := by
  have irreducible := Fact.mk squareCubic_irreducible
  exact ⟨irreducible, polymodIsSqr_exact_iff (by decide) _⟩

/-- In `F_5[x]` modulo `x^3 + x + 1` zero is a square and fails the test. -/
theorem polymodIsSqr_zero : Irreducible (monicPoly (![1, 1, 0] : Fin 3 → ZMod 5)) ∧
    IsSquare (0 : Polymod (![1, 1, 0] : Fin 3 → ZMod 5)) ∧
      polymodIsSqr (0 : Polymod (![1, 1, 0] : Fin 3 → ZMod 5)) = .ok false := by
  refine ⟨squareCubic_irreducible, IsSquare.zero, ?_⟩
  rw [polymodIsSqr_eq (by decide), zero_pow (by decide), decide_eq_false (by decide)]

end Values

end Pbc.Arith
