import Pbc.Arith.FasterFp
import Pbc.Arith.Montgomery

/-!
# Montgomery representation with a flag for zero

The implementation of `F_p` for odd moduli that keeps a residue times the power `R` of
the base. Additions are those of the other flagged implementation; what reads or
writes an integer, and what multiplies, goes through Montgomery's method.
-/

open Pbc.Gmp Pbc.Number

namespace Pbc.Arith

section Operations

variable (f : FpFieldData)

/-- The field member `R`. -/
def montR : ℕ := f.base ^ f.limbs % f.order

/-- The field member `R3`. -/
def montR3 : ℕ := montR f ^ 3 % f.order

/-- `fp_set_mpz`. -/
def montSetMpz (e : DataS) (z : ℤ) : DataS :=
  if z = 0 then { e with flag := false }
  else
    let tmp := z * f.base ^ f.limbs
    { fromMpz e (tmp % f.order).toNat with flag := true }

/-- `fp_set_si`. -/
def montSetSi (e : DataS) (op : ℤ) : DataS :=
  if op = 0 then { e with flag := false }
  else
    let tmp := op * f.base ^ f.limbs
    { fromMpz e (tmp % f.order).toNat with flag := true }

/-- `fp_to_mpz`. The loop that drops leading zero limbs does not stop at zero. -/
def montToMpz (e : DataS) : Option ℕ :=
  if !e.flag then some 0
  else
    let z := montReduce f (montNegpinv f) e.d
    if z = 0 then none else some z

/-- `fp_set1`. -/
def montSet1 (_e : DataS) : DataS := ⟨true, montR f⟩

/-- `fp_is1`. -/
def montIs1 (e : DataS) : Bool := if !e.flag then false else mpnCmp e.d (montR f) = 0

/-- `fp_set_str`. -/
def montSetStr (e : DataS) (s : List Char) (base : ℤ) : DataS :=
  montSetMpz f e (((pbcMpzSetStr s base).1 : ℤ) % f.order)

/-- `fp_mul`. -/
def montFpMul (c a b : DataS) : DataS :=
  if !a.flag || !b.flag then { c with flag := false }
  else ⟨true, montMul f (montNegpinv f) a.d b.d⟩

/-- `fp_pow_mpz`, for a nonnegative exponent. -/
def montPowMpz (c a : DataS) (op : ℕ) : Option DataS :=
  if !a.flag then some { c with flag := false }
  else do
    let z ← montToMpz f a
    let z := z ^ op % f.order
    let z := z * f.base ^ f.limbs % f.order
    return { fromMpz c z with flag := true }

/-- `fp_invert`. The limbs are read without the flag. -/
def montInvert (c a : DataS) : Option DataS := do
  let z ← mpzInvert f.order a.d
  return { c with d := montMul f (montNegpinv f) z.toNat (montR3 f), flag := true }

/-- `fp_random`, from the integer that `pbc_mpz_random` finds. -/
def montRandom (a : DataS) (z : ℕ) : DataS :=
  if z ≠ 0 then { fromMpz a (z * f.base ^ f.limbs % f.order) with flag := true }
  else { a with flag := false }

/-- `fp_from_hash`. -/
def montFromHash (a : DataS) (data : List UInt8) : Option DataS :=
  (pbcMpzFromHash f.order data).map fun z => montSetMpz f a z

/-- `fp_from_bytes`. -/
def montFromBytes (a : DataS) (data : List UInt8) : DataS :=
  let z := mpzImport (data.take (fixedLengthInBytes f.order))
  if z = 0 then { a with flag := false }
  else fromMpz { a with flag := true } (z * f.base ^ f.limbs % f.order)

end Operations

section Values

variable {f : FpFieldData}

/-- An element holds a residue in Montgomery's form. -/
def DataS.MontHolds (f : FpFieldData) (a : DataS) (x : ZMod f.order) : Prop :=
  a.Holds f (x * f.base ^ f.limbs)

/-- The power of the base is invertible modulo an odd modulus. -/
theorem isUnit_area (odd : f.order % 2 = 1) : IsUnit (f.base ^ f.limbs : ZMod f.order) := by
  refine IsUnit.pow _ ?_
  rw [FpFieldData.base, Nat.cast_pow]
  refine IsUnit.pow _ ((ZMod.isUnit_iff_coprime 256 f.order).mpr ?_)
  exact Nat.Coprime.pow_left 8 (Nat.coprime_two_left.mpr (Nat.odd_iff.mpr odd))

/-- An integer that is written in Montgomery's form. -/
private theorem natMod_montHolds (odd : f.order % 2 = 1) {z : ℕ} (nonzero : (z : ZMod f.order) ≠ 0) :
    (DataS.mk true (z * f.base ^ f.limbs % f.order)).MontHolds f z := by
  have product : ¬f.order ∣ z * f.base ^ f.limbs := by
    rw [← ZMod.natCast_eq_zero_iff, Nat.cast_mul, Nat.cast_pow]
    exact fun zero => nonzero ((isUnit_area odd).mul_left_eq_zero.mp zero)
  have holds := natMod_holds product
  rwa [Nat.cast_mul, Nat.cast_pow] at holds

theorem montSetMpz_holds (odd : f.order % 2 = 1) (e : DataS) {z : ℤ}
    (nonzero : z = 0 ∨ ¬(f.order : ℤ) ∣ z) : (montSetMpz f e z).MontHolds f z := by
  rw [montSetMpz]
  split
  · next zero => rw [DataS.MontHolds, DataS.holds_clear rfl, zero, Int.cast_zero, zero_mul]
  · next set =>
    have positive : (0 : ℤ) < f.order := by exact_mod_cast f.order_pos
    have lower := Int.emod_nonneg (z * f.base ^ f.limbs) positive.ne'
    have upper := Int.emod_lt_of_pos (z * f.base ^ f.limbs) positive
    have cast : (((z * f.base ^ f.limbs % f.order).toNat : ℕ) : ZMod f.order) =
        z * f.base ^ f.limbs := by
      rw [← Int.cast_natCast, Int.toNat_of_nonneg lower, ZMod.intCast_mod]
      push_cast
      rfl
    simp only [fromMpz, DataS.MontHolds, DataS.holds_mk]
    refine ⟨Nat.pos_of_ne_zero fun zero => ?_, by omega, cast⟩
    rw [zero, Nat.cast_zero] at cast
    have residue := (isUnit_area odd).mul_left_eq_zero.mp cast.symm
    exact nonzero.resolve_left set ((ZMod.intCast_zmod_eq_zero_iff_dvd z f.order).mp residue)

theorem montSetSi_holds {f : LimbField} (odd : f.order % 2 = 1) (e : DataS) {op : ℤ} (fits : op.natAbs < f.base) :
    (montSetSi f e op).MontHolds f op := by
  refine montSetMpz_holds odd e ?_
  by_cases zero : op = 0
  · exact Or.inl zero
  · refine Or.inr fun multiple => ?_
    have large := Nat.le_of_dvd (Int.natAbs_pos.mpr zero) (Int.natCast_dvd.mp multiple)
    exact absurd (f.base_le_order.trans large) (not_le.mpr fits)

theorem montSetStr_holds (odd : f.order % 2 = 1) (e : DataS) (s : List Char) (base : ℤ) :
    (montSetStr f e s base).MontHolds f (pbcMpzSetStr s base).1 := by
  have positive : (0 : ℤ) < f.order := by exact_mod_cast f.order_pos
  have lower := Int.emod_nonneg ((pbcMpzSetStr s base).1 : ℤ) positive.ne'
  have upper := Int.emod_lt_of_pos ((pbcMpzSetStr s base).1 : ℤ) positive
  have stored := montSetMpz_holds odd e (z := ((pbcMpzSetStr s base).1 : ℤ) % f.order) (by
    by_cases zero : ((pbcMpzSetStr s base).1 : ℤ) % f.order = 0
    · exact Or.inl zero
    · exact Or.inr fun multiple => zero (Int.eq_zero_of_dvd_of_nonneg_of_lt lower upper multiple))
  rwa [ZMod.intCast_mod, Int.cast_natCast] at stored

theorem montR_cast : (montR f : ZMod f.order) = f.base ^ f.limbs := by
  rw [montR, ZMod.natCast_mod, Nat.cast_pow]

theorem montSet1_holds (odd : f.order % 2 = 1) (e : DataS) : (montSet1 f e).MontHolds f 1 := by
  have large : Fact (1 < f.order) := ⟨f.one_lt_order⟩
  have holds := natMod_montHolds odd (z := 1) (by rw [Nat.cast_one]; exact one_ne_zero)
  rwa [one_mul, Nat.cast_one] at holds

theorem montIs1_eq (odd : f.order % 2 = 1) {a : DataS} {x : ZMod f.order}
    (holds : a.MontHolds f x) : montIs1 f a = true ↔ x = 1 := by
  have large : Fact (1 < f.order) := ⟨f.one_lt_order⟩
  have unit := isUnit_area odd
  cases flag : a.flag with
  | false =>
    have zero := unit.mul_left_eq_zero.mp ((DataS.holds_clear flag).mp holds)
    rw [montIs1, if_pos (by rw [flag]; decide), zero]
    exact iff_of_false Bool.false_ne_true zero_ne_one
  | true =>
    obtain ⟨positive, reduced, value⟩ := (DataS.holds_set flag).mp holds
    have small : montR f < f.order := Nat.mod_lt _ f.order_pos
    rw [montIs1, if_neg (by rw [flag]; decide), decide_eq_true_iff, mpnCmp_eq_zero,
      ← natCast_eq_iff reduced small, value, montR_cast, unit.mul_eq_right]

theorem montToMpz_spec (odd : f.order % 2 = 1)
    (inverse : montNegpinv f * f.order % f.base = f.base - 1) {a : DataS} {x : ZMod f.order}
    (holds : a.MontHolds f x) : ∃ z, montToMpz f a = some z ∧ z < f.order ∧ (z : ZMod f.order) = x := by
  have unit := isUnit_area odd
  cases flag : a.flag with
  | false =>
    have zero := unit.mul_left_eq_zero.mp ((DataS.holds_clear flag).mp holds)
    exact ⟨0, by rw [montToMpz, if_pos (by rw [flag]; decide)], f.order_pos, by rw [zero, Nat.cast_zero]⟩
  | true =>
    obtain ⟨positive, reduced, value⟩ := (DataS.holds_set flag).mp holds
    have bound : a.d < f.order * f.base ^ f.limbs :=
      reduced.trans_le (Nat.le_mul_of_pos_right _ (Nat.pow_pos f.one_lt_base.le))
    obtain ⟨small, residue⟩ := montReduce_spec inverse bound
    rw [value, mul_comm x] at residue
    have same := unit.mul_left_cancel residue
    refine ⟨_, ?_, small, same⟩
    rw [montToMpz, if_neg (by rw [flag]; decide)]
    refine if_neg fun zero => ?_
    rw [zero, Nat.cast_zero] at same
    rw [← same, zero_mul] at value
    exact natCast_ne_zero positive reduced value

/-- A product, unless it is a nonzero multiple of the modulus or a carry is lost. -/
theorem montFpMul_holds (odd : f.order % 2 = 1)
    (inverse : montNegpinv f * f.order % f.base = f.base - 1) (c : DataS) {a b : DataS}
    {x y : ZMod f.order} (left : a.MontHolds f x) (right : b.MontHolds f y)
    (nonzero : a.flag = true → b.flag = true → ¬f.order ∣ a.d * b.d ∧
      MontFits f.base f.order (montNegpinv f) f.limbs a.d b.d) :
    (montFpMul f c a b).MontHolds f (x * y) := by
  have unit := isUnit_area odd
  cases flag : a.flag with
  | false =>
    have zero := unit.mul_left_eq_zero.mp ((DataS.holds_clear flag).mp left)
    rw [montFpMul, if_pos (by rw [flag]; rfl), zero, zero_mul, DataS.MontHolds,
      DataS.holds_clear rfl, zero_mul]
  | true =>
    cases flag' : b.flag with
    | false =>
      have zero := unit.mul_left_eq_zero.mp ((DataS.holds_clear flag').mp right)
      rw [montFpMul, if_pos (by rw [flag, flag']; rfl), zero, mul_zero, DataS.MontHolds,
        DataS.holds_clear rfl, zero_mul]
    | true =>
      obtain ⟨-, reduced, value⟩ := (DataS.holds_set flag).mp left
      obtain ⟨-, reduced', value'⟩ := (DataS.holds_set flag').mp right
      obtain ⟨proper, fits⟩ := nonzero flag flag'
      obtain ⟨small, product⟩ := montMul_spec inverse reduced reduced' fits
      rw [montFpMul, if_neg (by rw [flag, flag']; decide), DataS.MontHolds, DataS.holds_mk]
      refine ⟨Nat.pos_of_ne_zero fun zero => proper ?_, small, ?_⟩
      · rw [zero, Nat.cast_zero, mul_zero] at product
        rw [← ZMod.natCast_eq_zero_iff, Nat.cast_mul, ← product]
      · refine unit.mul_left_cancel ?_
        rw [product, value, value']
        ring

/-- A power of a nonzero element, unless it vanishes. -/
theorem montPowMpz_holds (odd : f.order % 2 = 1)
    (inverse : montNegpinv f * f.order % f.base = f.base - 1) (c : DataS) {a : DataS}
    {x : ZMod f.order} (holds : a.MontHolds f x) {op : ℕ} (zero : a.flag = false → op ≠ 0)
    (nonzero : a.flag = true → ¬f.order ∣ a.d ^ op) :
    ∃ e, montPowMpz f c a op = some e ∧ e.MontHolds f (x ^ op) := by
  have unit := isUnit_area odd
  cases flag : a.flag with
  | false =>
    have vanishes := unit.mul_left_eq_zero.mp ((DataS.holds_clear flag).mp holds)
    refine ⟨_, by rw [montPowMpz, if_pos (by rw [flag]; rfl)], ?_⟩
    rw [vanishes, zero_pow (zero flag), DataS.MontHolds, DataS.holds_clear rfl, zero_mul]
  | true =>
    obtain ⟨-, -, value⟩ := (DataS.holds_set flag).mp holds
    obtain ⟨z, run, -, residue⟩ := montToMpz_spec odd inverse holds
    have power : ((z ^ op % f.order : ℕ) : ZMod f.order) = x ^ op := by
      rw [ZMod.natCast_mod, Nat.cast_pow, residue]
    refine ⟨⟨true, z ^ op % f.order * f.base ^ f.limbs % f.order⟩, ?_, ?_⟩
    · rw [montPowMpz, if_neg (by rw [flag]; decide), run]
      rfl
    · rw [← power]
      refine natMod_montHolds odd fun vanishes => nonzero flag ?_
      rw [← ZMod.natCast_eq_zero_iff, Nat.cast_pow, value, mul_pow, ← power, vanishes, zero_mul]

/-- An inverse of an invertible element, unless a carry is lost. -/
theorem montInvert_holds (odd : f.order % 2 = 1)
    (inverse : montNegpinv f * f.order % f.base = f.base - 1) (c : DataS) {a : DataS}
    {x : ZMod f.order} (holds : a.MontHolds f x) (flag : a.flag = true)
    (coprime : Nat.gcd a.d f.order = 1) (fits : ∀ z, mpzInvert f.order a.d = some z →
      MontFits f.base f.order (montNegpinv f) f.limbs z.toNat (montR3 f)) :
    ∃ e y, montInvert f c a = some e ∧ e.MontHolds f y ∧ y * x = 1 := by
  have unit := isUnit_area odd
  have large : Fact (1 < f.order) := ⟨f.one_lt_order⟩
  obtain ⟨-, -, value⟩ := (DataS.holds_set flag).mp holds
  obtain ⟨z, inverted, ⟨lower, upper⟩, product⟩ :=
    mpzInvert_mul (a := (a.d : ℤ)) f.order_pos coprime
  rw [Int.cast_natCast, value] at product
  have cast : ((z.toNat : ℕ) : ZMod f.order) = z := by
    rw [← Int.cast_natCast, Int.toNat_of_nonneg lower]
  have cube : (montR3 f : ZMod f.order) = (f.base ^ f.limbs : ZMod f.order) ^ 3 := by
    rw [montR3, ZMod.natCast_mod, Nat.cast_pow, montR_cast]
  have bound : montR3 f < f.order := Nat.mod_lt _ f.order_pos
  obtain ⟨small, result⟩ := montMul_spec inverse (by omega) bound (fits z inverted)
  rw [cast, cube] at result
  have stored : (montMul f (montNegpinv f) z.toNat (montR3 f) : ZMod f.order) =
      z * f.base ^ f.limbs * f.base ^ f.limbs := by
    refine unit.mul_left_cancel ?_
    rw [result]
    ring
  refine ⟨⟨true, montMul f (montNegpinv f) z.toNat (montR3 f)⟩, z * f.base ^ f.limbs, ?_, ?_, ?_⟩
  · rw [montInvert, inverted]
    rfl
  · rw [DataS.MontHolds, DataS.holds_mk]
    refine ⟨Nat.pos_of_ne_zero fun zero => ?_, small, stored⟩
    rw [zero, Nat.cast_zero] at stored
    have vanishes := unit.mul_left_eq_zero.mp (unit.mul_left_eq_zero.mp stored.symm)
    rw [vanishes, zero_mul] at product
    exact zero_ne_one product
  · rw [mul_right_comm, mul_assoc, product]

theorem montRandom_holds (odd : f.order % 2 = 1) (a : DataS) {z : ℕ} (reduced : z < f.order) :
    (montRandom f a z).MontHolds f z := by
  rw [montRandom]
  split
  · next nonzero =>
    exact natMod_montHolds odd (natCast_ne_zero (Nat.pos_of_ne_zero nonzero) reduced)
  · next zero => rw [DataS.MontHolds, DataS.holds_clear rfl, not_not.mp zero, Nat.cast_zero, zero_mul]

theorem montFromBytes_holds (odd : f.order % 2 = 1) (a : DataS) {data : List UInt8}
    (nonzero : mpzImport (data.take (fixedLengthInBytes f.order)) = 0 ∨
      ¬f.order ∣ mpzImport (data.take (fixedLengthInBytes f.order))) :
    (montFromBytes f a data).MontHolds f
      (mpzImport (data.take (fixedLengthInBytes f.order)) : ℕ) := by
  simp only [montFromBytes]
  split
  · next zero => rw [DataS.MontHolds, DataS.holds_clear rfl, zero, Nat.cast_zero, zero_mul]
  · next set =>
    refine natMod_montHolds odd ?_
    rw [Ne, ZMod.natCast_eq_zero_iff]
    exact nonzero.resolve_left set

end Values

end Pbc.Arith
