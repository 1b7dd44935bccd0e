import Mathlib.FieldTheory.Finite.Basic
import Mathlib.Algebra.GroupWithZero.Units.Lemmas
import Pbc.Algebra.Numerals

/-!
# Residue symbols

The power with exponent `(q - 1) / r` maps the nonzero elements of the field with `q`
elements to roots of unity of order `r`. A residue symbol is such a map for an odd order:
it kills signs, fourth roots of unity and every `r`-th power.
-/

namespace Pbc.Algebra

/-- A character of the nonzero elements whose values are roots of unity of odd order. -/
structure ResidueSymbol (K M : Type*) [Field K] [CommGroup M] (r : ℕ) where
  hom : Kˣ →* M
  odd : Odd r
  root : ∀ x, hom x ^ r = 1

namespace ResidueSymbol

section Values

variable {K M : Type*} [Field K] [CommGroup M] {r : ℕ} (symbol : ResidueSymbol K M r)

open Classical in
/-- The symbol of an element, with that of zero being one. -/
noncomputable def of (x : K) : M :=
  if zero : x = 0 then 1 else symbol.hom (Units.mk0 x zero)

theorem of_ne_zero {x : K} (nonzero : x ≠ 0) : symbol.of x = symbol.hom (Units.mk0 x nonzero) :=
  dif_neg nonzero

@[simp] theorem of_zero : symbol.of 0 = 1 := dif_pos rfl

@[simp] theorem of_one : symbol.of 1 = 1 := by
  rw [symbol.of_ne_zero one_ne_zero, Units.mk0_one, map_one]

theorem of_mul {x y : K} (left : x ≠ 0) (right : y ≠ 0) :
    symbol.of (x * y) = symbol.of x * symbol.of y := by
  rw [symbol.of_ne_zero left, symbol.of_ne_zero right, symbol.of_ne_zero (mul_ne_zero left right),
    Units.mk0_mul, map_mul]

theorem of_inv (x : K) : symbol.of x⁻¹ = (symbol.of x)⁻¹ := by
  by_cases zero : x = 0
  · rw [zero, inv_zero, of_zero, inv_one]
  · rw [symbol.of_ne_zero zero, symbol.of_ne_zero (inv_ne_zero zero), ← map_inv]
    congr 1
    exact Units.ext rfl

theorem of_div {x y : K} (left : x ≠ 0) (right : y ≠ 0) :
    symbol.of (x / y) = symbol.of x * (symbol.of y)⁻¹ := by
  rw [div_eq_mul_inv, symbol.of_mul left (inv_ne_zero right), of_inv]

theorem of_pow (x : K) (n : ℕ) : symbol.of (x ^ n) = symbol.of x ^ n := by
  by_cases zero : x = 0
  · subst zero
    cases n with
    | zero => rw [pow_zero, pow_zero, of_one]
    | succ n => rw [zero_pow n.succ_ne_zero, of_zero, one_pow]
  · induction n with
    | zero => rw [pow_zero, pow_zero, of_one]
    | succ n ih => rw [pow_succ, symbol.of_mul (pow_ne_zero n zero) zero, ih, pow_succ]

theorem of_root (x : K) : symbol.of x ^ r = 1 := by
  by_cases zero : x = 0
  · rw [zero, of_zero, one_pow]
  · rw [symbol.of_ne_zero zero, symbol.root]

/-- An odd order has no part in common with four. -/
theorem of_eq_one_of_pow_four {c : K} (four : c ^ 4 = 1) : symbol.of c = 1 := by
  have fourth : symbol.of c ^ 4 = 1 := by rw [← of_pow, four, of_one]
  have coprime : Nat.gcd 4 r = 1 := Nat.Coprime.pow_left 2 symbol.odd.coprime_two_left
  have whole : symbol.of c ^ Nat.gcd 4 r = 1 := pow_gcd_eq_one.mpr ⟨fourth, symbol.of_root c⟩
  rwa [coprime, pow_one] at whole

theorem of_neg (x : K) : symbol.of (-x) = symbol.of x := by
  by_cases zero : x = 0
  · rw [zero, neg_zero]
  · have sign : symbol.of (-1 : K) = 1 := symbol.of_eq_one_of_pow_four (by norm_num)
    rw [← neg_one_mul, symbol.of_mul (neg_ne_zero.mpr one_ne_zero) zero, sign, one_mul]

end Values

section Finite

variable {K : Type*} [Field K] [Fintype K]

/-- The power by which a reduced pairing maps its values to roots of unity. -/
def power (K : Type*) [Field K] [Fintype K] {r : ℕ} (odd : Odd r)
    (divides : r ∣ Fintype.card K - 1) : ResidueSymbol K Kˣ r where
  hom := powMonoidHom ((Fintype.card K - 1) / r)
  odd := odd
  root x := by
    classical
    rw [powMonoidHom_apply, ← pow_mul, Nat.div_mul_cancel divides, ← Fintype.card_units,
      pow_card_eq_one]

theorem power_of {r : ℕ} (odd : Odd r) (divides : r ∣ Fintype.card K - 1) {x : K}
    (nonzero : x ≠ 0) : ((power K odd divides).of x : K) = x ^ ((Fintype.card K - 1) / r) := by
  rw [(power K odd divides).of_ne_zero nonzero]
  rfl

end Finite

end ResidueSymbol

end Pbc.Algebra
