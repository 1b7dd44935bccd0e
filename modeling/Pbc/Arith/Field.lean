import Mathlib.Algebra.Field.ZMod
import Mathlib.FieldTheory.Finite.Basic
import Pbc.Algebra.Numerals

/-!
# Field objects

Generic code reaches the arithmetic of a coefficient structure through the
method table of its `field_t`. Addition, subtraction, negation and
multiplication are the ring operations of the type; the methods below are the
ones that an implementation computes in its own way. Inversion of zero ends the
program in polynomial extensions and leaves an unspecified value in `F_p`.
-/

namespace Pbc.Arith

/-- The messages with which a routine ends the program. -/
inductive Exit where
  | divisionByZero
  | oddEmbeddingDegree
  deriving DecidableEq, Repr

/-- The methods of an implementation of `F_p` whose values are not given by the
ring operations alone. -/
class FpMethods (F : Type*) [Field F] where
  invert : F → F
  halve : F → F
  invert_eq : ∀ a : F, a ≠ 0 → invert a = a⁻¹
  halve_eq : ∀ a : F, (2 : F) ≠ 0 → 2 * halve a = a

/-- The methods of a coefficient structure that generic code calls. -/
class FieldMethods (K : Type*) [CommRing K] where
  square : K → K
  double : K → K
  invert : K → Except Exit K
  square_eq : ∀ a : K, square a = a * a
  double_eq : ∀ a : K, double a = a + a

/-- The inversion of a field gives the inverse of every nonzero element. -/
class InvertsNonzero (K : Type*) [Field K] [FieldMethods K] : Prop where
  invert_ok : ∀ {a : K}, a ≠ 0 → FieldMethods.invert a = .ok a⁻¹

section Generic

variable {K : Type*} [CommRing K] [FieldMethods K]

/-- `generic_div`. -/
def genericDiv (a b : K) : Except Exit K := do
  let c ← FieldMethods.invert b
  return c * a

/-- `generic_halve`. -/
def genericHalve (a : K) : Except Exit K := do
  let e0 ← FieldMethods.invert (2 : K)
  return a * e0

theorem genericDiv_ok {K : Type*} [Field K] [FieldMethods K] [InvertsNonzero K] (a : K) {b : K} (nonzero : b ≠ 0) :
    genericDiv a b = .ok (a / b) := by
  rw [genericDiv, InvertsNonzero.invert_ok nonzero, div_eq_inv_mul]
  rfl

theorem genericHalve_ok {K : Type*} [Field K] [FieldMethods K] [InvertsNonzero K] (two : (2 : K) ≠ 0) (a : K) :
    genericHalve a = .ok (a / 2) := by
  rw [genericHalve, InvertsNonzero.invert_ok two, div_eq_mul_inv]
  rfl

end Generic

section Fp

variable {F : Type*} [Field F] [FpMethods F]

/-- `element_invert` in `F_p`. -/
def zpInvert (a : F) : F := FpMethods.invert a

/-- `element_halve` in `F_p`. -/
def zpHalve (a : F) : F := FpMethods.halve a

theorem zpInvert_eq {a : F} (nonzero : a ≠ 0) : zpInvert a = a⁻¹ :=
  FpMethods.invert_eq a nonzero

theorem zpHalve_eq (two : (2 : F) ≠ 0) (a : F) : zpHalve a = a / 2 := by
  rw [eq_div_iff two, mul_comm]
  exact FpMethods.halve_eq a two

/-- `generic_div` in `F_p`, which does not override it. -/
def zpDiv (a b : F) : F := zpInvert b * a

theorem zpDiv_eq (a : F) {b : F} (nonzero : b ≠ 0) : zpDiv a b = a / b := by
  rw [zpDiv, zpInvert_eq nonzero, mul_comm, div_eq_mul_inv]

instance : FieldMethods F where
  square a := a * a
  double a := a + a
  invert a := .ok (zpInvert a)
  square_eq _ := rfl
  double_eq _ := rfl

instance : InvertsNonzero F where
  invert_ok nonzero := congrArg Except.ok (zpInvert_eq nonzero)

end Fp

/-- The default implementation of `F_p`, with its value zero for the inverse of
zero and its halving by an odd modulus. -/
instance (p : ℕ) [prime : Fact p.Prime] : FpMethods (ZMod p) where
  invert a := (a.val ^ (p - 2) : ℕ)
  halve a := a * ((p + 1) / 2 : ℕ)
  invert_eq a nonzero := by
    have order := ZMod.pow_card_sub_one_eq_one nonzero
    have split : p - 1 = p - 2 + 1 := by
      have := prime.out.two_le
      omega
    rw [split, pow_succ] at order
    rw [Nat.cast_pow, ZMod.natCast_zmod_val]
    exact eq_inv_of_mul_eq_one_left order
  halve_eq a two := by
    have odd : p % 2 = 1 := by
      rcases prime.out.eq_two_or_odd with rfl | odd
      · exact absurd (CharTwo.two_eq_zero) two
      · exact odd
    have double : (2 : ZMod p) * ((p + 1) / 2 : ℕ) = 1 := by
      have exact : 2 * ((p + 1) / 2) = p + 1 := by omega
      have cast := congrArg (Nat.cast : ℕ → ZMod p) exact
      push_cast at cast
      simpa using cast
    rw [mul_left_comm, double, mul_one]

/-- The field of the small examples. -/
instance primeFive : Fact (Nat.Prime 5) := ⟨by decide⟩

end Pbc.Arith
