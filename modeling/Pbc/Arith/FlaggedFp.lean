import Mathlib.Data.ZMod.Basic
import Pbc.Gmp.Mpn

/-!
# Limbs with a flag for zero

Two implementations of `F_p` keep the limbs of an element beside a flag that is
clear for zero, and share the text of their additive routines. An element whose
flag is clear keeps the limbs it held before. The routines name the destination
first, since some of them leave its flag or its limbs as they were.
-/

open Pbc.Gmp

namespace Pbc.Arith

/-- `struct fp_field_data_s` with the order of the field; a limb has `limbBytes` bytes, as
has an unsigned long. -/
structure FpFieldData where
  limbBytes : ℕ
  order : ℕ
  positive : 0 < limbBytes
  proper : 1 < order

theorem proper_of_wide {limbBytes order : ℕ} (positive : 0 < limbBytes)
    (wide : 256 ^ limbBytes ≤ order) : 1 < order :=
  (Nat.one_lt_pow positive.ne' (by decide)).trans_le wide

/-- The order takes more than one limb. -/
structure LimbField extends FpFieldData where
  wide : 256 ^ limbBytes ≤ order
  proper := proper_of_wide positive wide

namespace FpFieldData

/-- The number of values of a limb. -/
def base (f : FpFieldData) : ℕ := 256 ^ f.limbBytes

/-- The limbs of the modulus. -/
def limbs (f : FpFieldData) : ℕ := mpzSize f.base f.order

theorem one_lt_base (f : FpFieldData) : 1 < f.base := Nat.one_lt_pow f.positive.ne' (by decide)

theorem order_pos (f : FpFieldData) : 0 < f.order := Nat.zero_lt_one.trans f.proper

theorem one_lt_order (f : FpFieldData) : 1 < f.order := f.proper

theorem limbs_pos (f : FpFieldData) : 0 < f.limbs := Nat.succ_pos _

theorem order_lt (f : FpFieldData) : f.order < f.base ^ f.limbs :=
  lt_pow_mpzSize f.one_lt_base f.order

theorem two_dvd_base (f : FpFieldData) : 2 ∣ f.base :=
  dvd_pow (by decide) f.positive.ne'

theorem two_dvd_area (f : FpFieldData) : 2 ∣ f.base ^ f.limbs :=
  dvd_pow f.two_dvd_base (Nat.succ_ne_zero _)

end FpFieldData

instance LimbField.coe : Coe LimbField FpFieldData := ⟨LimbField.toFpFieldData⟩

theorem LimbField.base_le_order (f : LimbField) : f.base ≤ f.order := f.wide

/-- `struct data_s`. -/
structure DataS where
  flag : Bool
  d : ℕ
  deriving DecidableEq, Repr

section Operations

variable (f : FpFieldData)

/-- `fp_init`; the limbs are what the allocated memory holds. -/
def fpInit (garbage : ℕ) : DataS := ⟨false, garbage⟩

/-- `fp_set0`. -/
def fpSet0 (e : DataS) : DataS := { e with flag := false }

/-- `fp_is0`. -/
def fpIs0 (e : DataS) : Bool := !e.flag

/-- `fp_set`. -/
def fpSet (c a : DataS) : DataS := if a.flag then ⟨true, a.d⟩ else { c with flag := false }

/-- `fp_add`. -/
def fpAdd (c a b : DataS) : DataS :=
  if !a.flag then fpSet c b
  else if !b.flag then fpSet c a
  else
    let (d, carry) := mpnAddN f.base f.limbs a.d b.d
    if carry ≠ 0 then ⟨true, (mpnSubN f.base f.limbs d f.order).1⟩
    else
      let i := mpnCmp d f.order
      if i = 0 then ⟨false, d⟩
      else if i > 0 then ⟨true, (mpnSubN f.base f.limbs d f.order).1⟩
      else ⟨true, d⟩

/-- `fp_double`. -/
def fpDouble (c a : DataS) : DataS :=
  if !a.flag then { c with flag := false }
  else
    let (d, carry) := mpnLshift1 f.base f.limbs a.d
    if carry ≠ 0 then ⟨true, (mpnSubN f.base f.limbs d f.order).1⟩
    else
      let i := mpnCmp d f.order
      if i = 0 then ⟨false, d⟩
      else if i > 0 then ⟨true, (mpnSubN f.base f.limbs d f.order).1⟩
      else ⟨true, d⟩

/-- `fp_halve`. The carry goes to the highest bit, which the shift has cleared. For odd
limbs the flag of the destination is not written. -/
def fpHalve (c a : DataS) : DataS :=
  if !a.flag then { c with flag := false }
  else if a.d % 2 = 1 then
    let (d, carry) := mpnAddN f.base f.limbs a.d f.order
    let d := mpnRshift1 d
    { c with d := if carry ≠ 0 then d + f.base ^ f.limbs / 2 else d }
  else
    let c := fpSet c a
    { c with d := mpnRshift1 c.d }

/-- `fp_neg`. -/
def fpNeg (c a : DataS) : DataS :=
  if !a.flag then { c with flag := false }
  else ⟨true, (mpnSubN f.base f.limbs f.order a.d).1⟩

/-- `fp_sub`. -/
def fpSub (c a b : DataS) : DataS :=
  if !a.flag then fpNeg f c b
  else if !b.flag then fpSet c a
  else
    let i := mpnCmp a.d b.d
    if i = 0 then { c with flag := false }
    else
      let d := (mpnSubN f.base f.limbs a.d b.d).1
      if i < 0 then ⟨true, (mpnAddN f.base f.limbs d f.order).1⟩ else ⟨true, d⟩

/-- `fp_cmp`. The limbs of the second element are read without its flag. -/
def fpCmp (a b : DataS) : ℤ :=
  if !a.flag then (if b.flag then 2 else 0) else mpnCmp a.d b.d

end Operations

section Values

variable {f : FpFieldData}

/-- An element holds a residue: none of its limbs matter for zero, and otherwise they
are the reduced residue. -/
def DataS.Holds (f : FpFieldData) (a : DataS) (x : ZMod f.order) : Prop :=
  if a.flag then 0 < a.d ∧ a.d < f.order ∧ (a.d : ZMod f.order) = x else x = 0

theorem DataS.holds_clear {a : DataS} (flag : a.flag = false) {x : ZMod f.order} :
    a.Holds f x ↔ x = 0 := by
  rw [DataS.Holds, if_neg (by rw [flag]; exact Bool.false_ne_true)]

theorem DataS.holds_set {a : DataS} (flag : a.flag = true) {x : ZMod f.order} :
    a.Holds f x ↔ 0 < a.d ∧ a.d < f.order ∧ (a.d : ZMod f.order) = x := by
  rw [DataS.Holds, if_pos flag]

@[simp] theorem DataS.holds_mk {d : ℕ} {x : ZMod f.order} :
    (DataS.mk true d).Holds f x ↔ 0 < d ∧ d < f.order ∧ (d : ZMod f.order) = x :=
  DataS.holds_set rfl

/-- The residue of a reduced positive integer is not zero. -/
theorem natCast_ne_zero {p d : ℕ} (positive : 0 < d) (reduced : d < p) : (d : ZMod p) ≠ 0 := by
  intro zero
  exact absurd (Nat.le_of_dvd positive ((ZMod.natCast_eq_zero_iff d p).mp zero)) (not_le.mpr reduced)

/-- Reduced integers with one residue are equal. -/
theorem natCast_eq_iff {p c d : ℕ} (left : c < p) (right : d < p) :
    (c : ZMod p) = d ↔ c = d := by
  rw [ZMod.natCast_eq_natCast_iff', Nat.mod_eq_of_lt left, Nat.mod_eq_of_lt right]

/-- The flag is clear exactly for the residue zero. -/
theorem DataS.Holds.flag_iff {a : DataS} {x : ZMod f.order} (holds : a.Holds f x) :
    a.flag = false ↔ x = 0 := by
  cases flag : a.flag with
  | false => exact iff_of_true rfl ((DataS.holds_clear flag).mp holds)
  | true =>
    obtain ⟨positive, reduced, rfl⟩ := (DataS.holds_set flag).mp holds
    exact iff_of_false (by decide) (natCast_ne_zero positive reduced)

theorem fpIs0_eq {a : DataS} {x : ZMod f.order} (holds : a.Holds f x) :
    fpIs0 a = true ↔ x = 0 := by
  rw [fpIs0, Bool.not_eq_true', holds.flag_iff]

theorem fpInit_holds (garbage : ℕ) : (fpInit garbage).Holds f 0 := (DataS.holds_clear rfl).mpr rfl

theorem fpSet0_holds (e : DataS) : (fpSet0 e).Holds f 0 := (DataS.holds_clear rfl).mpr rfl

theorem fpSet_holds (c : DataS) {a : DataS} {x : ZMod f.order} (holds : a.Holds f x) :
    (fpSet c a).Holds f x := by
  cases flag : a.flag with
  | false =>
    rw [fpSet, if_neg (by rw [flag]; exact Bool.false_ne_true), DataS.holds_clear rfl]
    exact (DataS.holds_clear flag).mp holds
  | true =>
    rw [fpSet, if_pos flag, DataS.holds_set rfl]
    exact (DataS.holds_set flag).mp holds

/-- A difference with the modulus has the same residue. -/
private theorem natCast_sub_order {p d : ℕ} (order : p ≤ d) : ((d - p : ℕ) : ZMod p) = d := by
  rw [Nat.cast_sub order, ZMod.natCast_self, sub_zero]

/-- Addition of two elements whose flags are set. -/
private theorem fpAdd_set (c : DataS) {a b : DataS} {x y : ZMod f.order} (flag : a.flag = true)
    (flag' : b.flag = true) (left : a.Holds f x) (right : b.Holds f y) :
    (fpAdd f c a b).Holds f (x + y) := by
  obtain ⟨positive, reduced, rfl⟩ := (DataS.holds_set flag).mp left
  obtain ⟨positive', reduced', rfl⟩ := (DataS.holds_set flag').mp right
  have area := f.order_lt
  rw [fpAdd, if_neg (by rw [flag]; decide), if_neg (by rw [flag']; decide)]
  rw [← Nat.cast_add]
  by_cases fits : a.d + b.d < f.base ^ f.limbs
  · simp only [mpnAddN_of_lt fits, ne_eq, not_true_eq_false, if_false, mpnCmp_eq_zero, mpnCmp_pos]
    by_cases equal : a.d + b.d = f.order
    · rw [if_pos equal, DataS.holds_clear rfl, equal, ZMod.natCast_self]
    · rw [if_neg equal]
      by_cases above : f.order < a.d + b.d
      · rw [if_pos above, mpnSubN_of_le above.le, DataS.holds_mk, natCast_sub_order above.le]
        exact ⟨by omega, by omega, rfl⟩
      · rw [if_neg above, DataS.holds_mk]
        exact ⟨by omega, by omega, rfl⟩
  · -- The difference is not zero, since the modulus is below the area.
    rw [mpnAddN_of_le (not_lt.mp fits) (by omega)]
    have wrapped : a.d + b.d - f.base ^ f.limbs + f.base ^ f.limbs - f.order =
        a.d + b.d - f.order := by omega
    simp only [ne_eq, one_ne_zero, not_false_eq_true, if_true]
    rw [mpnSubN_of_lt (by omega), wrapped, DataS.holds_mk, natCast_sub_order (by omega)]
    exact ⟨by omega, by omega, rfl⟩

theorem fpAdd_holds (c : DataS) {a b : DataS} {x y : ZMod f.order} (left : a.Holds f x)
    (right : b.Holds f y) : (fpAdd f c a b).Holds f (x + y) := by
  cases flag : a.flag with
  | false =>
    rw [fpAdd, if_pos (by rw [flag]; decide), (DataS.holds_clear flag).mp left, zero_add]
    exact fpSet_holds c right
  | true =>
    cases flag' : b.flag with
    | false =>
      rw [fpAdd, if_neg (by rw [flag]; decide), if_pos (by rw [flag']; decide),
        (DataS.holds_clear flag').mp right, add_zero]
      exact fpSet_holds c left
    | true => exact fpAdd_set c flag flag' left right

theorem fpDouble_holds (c : DataS) {a : DataS} {x : ZMod f.order} (holds : a.Holds f x) :
    (fpDouble f c a).Holds f (x + x) := by
  cases flag : a.flag with
  | false =>
    rw [fpDouble, if_pos (by rw [flag]; decide), (DataS.holds_clear flag).mp holds, add_zero]
    exact (DataS.holds_clear rfl).mpr rfl
  | true =>
    have sum := fpAdd_set c flag flag holds holds
    rw [fpAdd, if_neg (by rw [flag]; decide), if_neg (by rw [flag]; decide)] at sum
    rw [fpDouble, if_neg (by rw [flag]; decide), mpnLshift1_eq]
    exact sum

theorem fpNeg_holds (c : DataS) {a : DataS} {x : ZMod f.order} (holds : a.Holds f x) :
    (fpNeg f c a).Holds f (-x) := by
  cases flag : a.flag with
  | false =>
    rw [fpNeg, if_pos (by rw [flag]; decide), (DataS.holds_clear flag).mp holds, neg_zero]
    exact (DataS.holds_clear rfl).mpr rfl
  | true =>
    obtain ⟨positive, reduced, rfl⟩ := (DataS.holds_set flag).mp holds
    rw [fpNeg, if_neg (by rw [flag]; decide), mpnSubN_of_le reduced.le, DataS.holds_mk,
      Nat.cast_sub reduced.le, ZMod.natCast_self, zero_sub]
    exact ⟨by omega, by omega, rfl⟩

theorem fpSub_holds (c : DataS) {a b : DataS} {x y : ZMod f.order} (left : a.Holds f x)
    (right : b.Holds f y) : (fpSub f c a b).Holds f (x - y) := by
  cases flag : a.flag with
  | false =>
    rw [fpSub, if_pos (by rw [flag]; decide), (DataS.holds_clear flag).mp left, zero_sub]
    exact fpNeg_holds c right
  | true =>
    cases flag' : b.flag with
    | false =>
      rw [fpSub, if_neg (by rw [flag]; decide), if_pos (by rw [flag']; decide),
        (DataS.holds_clear flag').mp right, sub_zero]
      exact fpSet_holds c left
    | true =>
      obtain ⟨positive, reduced, rfl⟩ := (DataS.holds_set flag).mp left
      obtain ⟨positive', reduced', rfl⟩ := (DataS.holds_set flag').mp right
      have area := f.order_lt
      rw [fpSub, if_neg (by rw [flag]; decide), if_neg (by rw [flag']; decide)]
      simp only [mpnCmp_eq_zero, mpnCmp_neg]
      by_cases equal : a.d = b.d
      · rw [if_pos equal, DataS.holds_clear rfl, equal, sub_self]
      · rw [if_neg equal]
        by_cases below : a.d < b.d
        · -- The borrow of the subtraction is the carry of the addition.
          have sum : a.d + f.base ^ f.limbs - b.d + f.order - f.base ^ f.limbs =
              a.d + f.order - b.d := by omega
          rw [if_pos below, mpnSubN_of_lt below, mpnAddN_of_le (by omega) (by omega), sum,
            DataS.holds_mk, Nat.cast_sub (by omega), Nat.cast_add, ZMod.natCast_self,
            add_zero]
          exact ⟨by omega, by omega, rfl⟩
        · rw [if_neg below, mpnSubN_of_le (not_lt.mp below), DataS.holds_mk,
            Nat.cast_sub (not_lt.mp below)]
          exact ⟨by omega, by omega, rfl⟩

/-- Halving an element whose limbs are even, and, by an odd modulus, one whose limbs are
odd into a destination whose flag is set. -/
theorem fpHalve_holds {c a : DataS} {x : ZMod f.order} (holds : a.Holds f x)
    (ready : a.flag = true → a.d % 2 = 1 → c.flag = true ∧ f.order % 2 = 1) :
    ∃ y, (fpHalve f c a).Holds f y ∧ y + y = x := by
  cases flag : a.flag with
  | false =>
    refine ⟨0, ?_, by rw [add_zero, (DataS.holds_clear flag).mp holds]⟩
    rw [fpHalve, if_pos (by rw [flag]; decide)]
    exact (DataS.holds_clear rfl).mpr rfl
  | true =>
    obtain ⟨positive, reduced, rfl⟩ := (DataS.holds_set flag).mp holds
    have area := f.order_lt
    rw [fpHalve, if_neg (by rw [flag]; decide)]
    by_cases odd : a.d % 2 = 1
    · obtain ⟨set, modulus⟩ := ready flag odd
      refine ⟨((a.d + f.order) / 2 : ℕ), ?_, ?_⟩
      · rw [if_pos odd]
        by_cases fits : a.d + f.order < f.base ^ f.limbs
        · simp only [mpnAddN_of_lt fits, mpnRshift1, set, ne_eq, not_true_eq_false, if_false]
          rw [DataS.holds_mk]
          exact ⟨by omega, by omega, rfl⟩
        · have even := f.two_dvd_area
          have whole : (a.d + f.order - f.base ^ f.limbs) / 2 + f.base ^ f.limbs / 2 =
              (a.d + f.order) / 2 := by omega
          simp only [mpnAddN_of_le (not_lt.mp fits) (by omega), mpnRshift1, set, ne_eq, one_ne_zero,
            not_false_eq_true, if_true, whole]
          rw [DataS.holds_mk]
          exact ⟨by omega, by omega, rfl⟩
      · have whole : (a.d + f.order) / 2 + (a.d + f.order) / 2 = a.d + f.order := by omega
        rw [← Nat.cast_add, whole, Nat.cast_add, ZMod.natCast_self, add_zero]
    · refine ⟨(a.d / 2 : ℕ), ?_, ?_⟩
      · rw [if_neg odd]
        simp only [fpSet, flag, if_true, mpnRshift1]
        rw [DataS.holds_mk]
        exact ⟨by omega, by omega, rfl⟩
      · have whole : a.d / 2 + a.d / 2 = a.d := by omega
        rw [← Nat.cast_add, whole]

end Values

end Pbc.Arith
