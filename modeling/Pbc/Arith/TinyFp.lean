import Pbc.Arith.FastFp
import Pbc.Arith.NaiveFp

/-!
# Residues in one machine word

The implementation of `F_p` for moduli that fit in an unsigned long. Its products are
formed in an unsigned long before they are widened and reduced, so that they are the
products of the residues only up to multiples of the word that the modulus divides.
-/

open Pbc.Gmp

namespace Pbc.Arith

/-- The modulus of the field, with the size of an unsigned long. -/
structure TinyField where
  longBytes : ℕ
  order : ℕ
  positive : 0 < longBytes
  proper : 1 < order
  fits : order < 256 ^ longBytes

namespace TinyField

/-- The number of values of an unsigned long. -/
def word (f : TinyField) : ℕ := 256 ^ f.longBytes

theorem order_lt_word (f : TinyField) : f.order < f.word := f.fits

theorem order_pos (f : TinyField) : 0 < f.order := Nat.zero_lt_of_lt f.proper

theorem word_pos (f : TinyField) : 0 < f.word := Nat.zero_lt_of_lt f.fits

/-- An odd modulus is prime to the word. -/
theorem coprime_word (f : TinyField) (odd : f.order % 2 = 1) : Nat.Coprime f.order f.word := by
  refine Nat.Coprime.pow_right _ (Nat.Coprime.pow_right 8 ?_ : Nat.Coprime f.order (2 ^ 8))
  exact Nat.coprime_two_right.mpr (Nat.odd_iff.mpr odd)

end TinyField

section Operations

variable (f : TinyField)

/-- `fp_set_mpz`. -/
def tinySetMpz (z : ℤ) : ℕ := (z % f.order).toNat

/-- `fp_set_si`. -/
def tinySetSi (op : ℤ) : ℕ :=
  if op < 0 then f.order - (-op).toNat % f.order else op.toNat % f.order

/-- `fp_set1`. -/
def tinySet1 : ℕ := 1

/-- `fp_double`. With one object for both arguments the test for a carry reads the sum
twice. -/
def tinyDouble (inPlace : Bool) (a : ℕ) : ℕ :=
  let r := 2 * a % f.word
  let p := if inPlace then r else a
  let r := if r < p then (r + f.word - f.order) % f.word else r
  r % f.order

/-- The remainder of an integer that an unsigned long has wrapped. -/
def tinyRemainder (ll : ℤ) : ℕ := (ll % f.word).toNat % f.order

/-- `fp_mul`. -/
def tinyMul (a b : ℕ) : ℕ := tinyRemainder f (a * b)

/-- `fp_square`. -/
def tinySquare (a : ℕ) : ℕ := tinyMul f a a

/-- `fp_mul_si`. -/
def tinyMulSi (a : ℕ) (op : ℤ) : ℕ := tinyRemainder f (a * op)

/-- `fp_pow_mpz`, for a nonnegative exponent. -/
def tinyPowMpz (a op : ℕ) : ℕ := a ^ op % f.order

/-- `fp_invert`. -/
def tinyInvert (a : ℕ) : Option ℕ := (mpzInvert f.order a).map Int.toNat

/-- `generic_halve`. -/
def tinyHalve (a : ℕ) : Option ℕ := do
  let e0 := tinySetSi f 2
  let e0 ← tinyInvert f e0
  return tinyMul f a e0

end Operations

section Values

variable {f : TinyField} {a b : ℕ} {x y : ZMod f.order}

theorem tinySetMpz_holds (z : ℤ) : Reduced f.order (tinySetMpz f z) z := reduced_emod f.order_pos z

theorem tinySet1_holds : Reduced f.order tinySet1 1 := ⟨f.proper, Nat.cast_one⟩

theorem tinyPowMpz_holds (holds : Reduced f.order a x) (op : ℕ) :
    Reduced f.order (tinyPowMpz f a op) (x ^ op) := by
  rw [← holds.value, ← Nat.cast_pow]
  exact reduced_mod f.order_pos (a ^ op)

/-- Wrapping keeps the residue exactly when the modulus divides what is taken off. -/
theorem tinyRemainder_holds_iff (ll : ℤ) :
    Reduced f.order (tinyRemainder f ll) ll ↔ (f.order : ℤ) ∣ f.word * (ll / f.word) := by
  have word : (0 : ℤ) < f.word := by exact_mod_cast f.word_pos
  have split := Int.mul_ediv_add_emod ll f.word
  have rest : (((ll % f.word).toNat : ℕ) : ZMod f.order) = (ll % f.word : ℤ) := by
    rw [← Int.cast_natCast, Int.toNat_of_nonneg (Int.emod_nonneg ll word.ne')]
  have small : tinyRemainder f ll < f.order := Nat.mod_lt _ f.order_pos
  have value : (tinyRemainder f ll : ZMod f.order) = ll ↔
      ((f.word * (ll / f.word) : ℤ) : ZMod f.order) = 0 := by
    rw [tinyRemainder, ZMod.natCast_mod, rest]
    conv_lhs => rhs; rw [← split]
    rw [Int.cast_add, right_eq_add]
  rw [← ZMod.intCast_zmod_eq_zero_iff_dvd, ← value]
  exact ⟨Reduced.value, fun same => ⟨small, same⟩⟩

/-- An integer that is not wrapped keeps its residue. -/
theorem tinyRemainder_holds {ll : ℤ} (lower : 0 ≤ ll) (upper : ll < f.word) :
    Reduced f.order (tinyRemainder f ll) ll := by
  rw [tinyRemainder_holds_iff, Int.ediv_eq_zero_of_lt lower upper, mul_zero]
  exact dvd_zero _

/-- By an odd modulus the integer must lose a multiple of the modulus of words. -/
theorem tinyRemainder_odd_iff (odd : f.order % 2 = 1) (ll : ℤ) :
    Reduced f.order (tinyRemainder f ll) ll ↔ (f.order : ℤ) ∣ ll / f.word := by
  rw [tinyRemainder_holds_iff]
  exact ⟨(Nat.isCoprime_iff_coprime.mpr (f.coprime_word odd)).dvd_of_dvd_mul_left,
    fun multiple => Dvd.dvd.mul_left multiple _⟩

theorem tinyMul_holds (left : Reduced f.order a x) (right : Reduced f.order b y)
    (fits : a * b < f.word) : Reduced f.order (tinyMul f a b) (x * y) := by
  have product : Reduced f.order (tinyRemainder f (a * b)) ((a * b : ℤ) : ZMod f.order) :=
    tinyRemainder_holds (by positivity) (by exact_mod_cast fits)
  rw [Int.cast_mul, Int.cast_natCast, Int.cast_natCast, left.value, right.value] at product
  exact product

end Values

end Pbc.Arith
