import Mathlib.Algebra.Field.ZMod
import Mathlib.GroupTheory.SpecificGroups.Cyclic
import Pbc.Algebra.Numerals

/-!
# Symmetric pairings

Symmetric bilinear maps from a group of prime order to a commutative group that no point but zero
takes to one everywhere, and multiples of points by residues modulo the order.
-/

namespace Pbc.Algebra

/-- A symmetric pairing of a group of order `n`. -/
structure SymmetricPairing (n : ℕ) (G T : Type*) [AddCommGroup G] [CommGroup T] where
  pair : G → G → T
  card : Nat.card G = n
  symm : ∀ P Q, pair P Q = pair Q P
  add_left : ∀ P Q R, pair (P + Q) R = pair P R * pair Q R
  nondegenerate : ∀ P, (∀ Q, pair P Q = 1) → P = 0

variable {n : ℕ} {G T : Type*} [AddCommGroup G]

/-- The multiple of a point by a residue. -/
def zmodMul (P : G) (z : ZMod n) : G := z.val • P

section Multiples

variable (card : Nat.card G = n)

include card

theorem mod_nsmul (k : ℕ) (P : G) : (k % n) • P = k • P := by
  have order : n • P = 0 := by
    rw [← card]
    exact card_nsmul_eq_zero'
  conv_rhs => rw [← Nat.mod_add_div k n, add_nsmul, mul_nsmul, order, nsmul_zero, add_zero]

theorem zmodMul_mul (P : G) (y z : ZMod n) : zmodMul P (y * z) = zmodMul (zmodMul P y) z := by
  rw [zmodMul, ZMod.val_mul, mod_nsmul card, mul_nsmul]
  rfl

variable [NeZero n]

theorem zmodMul_add (P : G) (y z : ZMod n) : zmodMul P (y + z) = zmodMul P y + zmodMul P z := by
  rw [zmodMul, ZMod.val_add, mod_nsmul card, add_nsmul]
  rfl

theorem zmodMul_neg (P : G) (z : ZMod n) : zmodMul P (-z) = -zmodMul P z := by
  refine eq_neg_of_add_eq_zero_left ?_
  rw [← zmodMul_add card, neg_add_cancel, zmodMul, ZMod.val_zero, zero_nsmul]

omit [NeZero n] in
/-- Every point is one multiple of a generator. -/
theorem existsUnique_zmodMul [prime : Fact n.Prime] {P : G} (generator : P ≠ 0) (Q : G) :
    ∃! z : ZMod n, zmodMul P z = Q := by
  have : NeZero n := ⟨prime.out.ne_zero⟩
  obtain ⟨k, rfl⟩ : ∃ k : ℕ, k • P = Q := by
    have member : Q ∈ AddSubmonoid.multiples P := mem_multiples_of_prime_card card generator
    exact AddSubmonoid.mem_multiples_iff _ _ |>.mp member
  refine ⟨k, ?_, fun z same => ?_⟩
  · change (k : ZMod n).val • P = k • P
    rw [ZMod.val_natCast, mod_nsmul card]
  · have torsion : n • P = 0 := by
      rw [← card]
      exact card_nsmul_eq_zero'
    have order : addOrderOf P = n := addOrderOf_eq_prime torsion generator
    have same : z.val • P = k • P := same
    rw [nsmul_eq_nsmul_iff_modEq, order] at same
    rw [← ZMod.natCast_zmod_val z]
    exact (ZMod.natCast_eq_natCast_iff _ _ _).2 same

omit [NeZero n] in
theorem zmodMul_ne_zero [Fact n.Prime] {P : G} (generator : P ≠ 0) {z : ZMod n} (nonzero : z ≠ 0) :
    zmodMul P z ≠ 0 := by
  intro zero
  have : NeZero n := ⟨‹Fact n.Prime›.out.ne_zero⟩
  have zero' : zmodMul P (0 : ZMod n) = 0 := by rw [zmodMul, ZMod.val_zero, zero_nsmul]
  exact nonzero ((existsUnique_zmodMul card generator 0).unique zero zero')

end Multiples

theorem zmodMul_add_left (P Q : G) (z : ZMod n) : zmodMul (P + Q) z = zmodMul P z + zmodMul Q z :=
  nsmul_add P Q z.val

namespace SymmetricPairing

variable [CommGroup T] (e : SymmetricPairing n G T)

theorem add_right (P Q R : G) : e.pair P (Q + R) = e.pair P Q * e.pair P R := by
  rw [e.symm, e.add_left, e.symm Q, e.symm R]

@[simp] theorem zero_left (P : G) : e.pair 0 P = 1 := by
  have twice := e.add_left 0 0 P
  rw [add_zero] at twice
  exact right_eq_mul.mp twice

theorem neg_left (P Q : G) : e.pair (-P) Q = (e.pair P Q)⁻¹ := by
  refine eq_inv_of_mul_eq_one_left ?_
  rw [← e.add_left, neg_add_cancel, zero_left]

theorem nsmul_left (k : ℕ) (P Q : G) : e.pair (k • P) Q = e.pair P Q ^ k := by
  induction k with
  | zero => rw [zero_nsmul, zero_left, pow_zero]
  | succ k ih => rw [succ_nsmul, e.add_left, ih, pow_succ]

theorem nsmul_right (k : ℕ) (P Q : G) : e.pair P (k • Q) = e.pair P Q ^ k := by
  rw [e.symm, nsmul_left, e.symm]

theorem zmodMul_left (P Q : G) (z : ZMod n) : e.pair (zmodMul P z) Q = e.pair P Q ^ z.val :=
  e.nsmul_left z.val P Q

theorem zmodMul_right (P Q : G) (z : ZMod n) : e.pair P (zmodMul Q z) = e.pair P Q ^ z.val :=
  e.nsmul_right z.val P Q

/-- A multiple goes from one side to the other. -/
theorem zmodMul_comm (P Q : G) (z : ZMod n) : e.pair (zmodMul P z) Q = e.pair P (zmodMul Q z) := by
  rw [zmodMul_left, zmodMul_right]

/-- A generator tells all points apart. -/
theorem pair_eq_iff [prime : Fact n.Prime] {P : G} (generator : P ≠ 0) (Q R : G) :
    e.pair P Q = e.pair P R ↔ Q = R := by
  constructor
  · intro equal
    have one : e.pair P (Q - R) = 1 := by
      have sum := e.add_right P (Q - R) R
      rw [sub_add_cancel, equal] at sum
      exact right_eq_mul.mp sum
    refine sub_eq_zero.mp (e.nondegenerate _ ?_)
    intro S
    obtain ⟨k, rfl⟩ : ∃ k : ℕ, k • P = S := by
      have member : S ∈ AddSubmonoid.multiples P := mem_multiples_of_prime_card e.card generator
      exact AddSubmonoid.mem_multiples_iff _ _ |>.mp member
    rw [nsmul_right, e.symm, one, one_pow]
  · rintro rfl
    rfl

end SymmetricPairing

/-- The product of residues. -/
def residuePairing (n : ℕ) [NeZero n] : SymmetricPairing n (ZMod n) (Multiplicative (ZMod n)) where
  pair x y := Multiplicative.ofAdd (x * y)
  card := Nat.card_zmod n
  symm x y := by rw [mul_comm]
  add_left x y z := by rw [add_mul, ofAdd_add]
  nondegenerate x one := by
    have value := one 1
    rwa [mul_one, ofAdd_eq_one] at value

end Pbc.Algebra
