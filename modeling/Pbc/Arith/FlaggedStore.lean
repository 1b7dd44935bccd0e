import Pbc.Arith.MontExact

/-!
# Flagged elements that share their objects

The additive routines of the two flagged implementations write the flag and the limbs of their
destination one after the other, and read their operands in between, which may be the same
object. They leave in it what they compute from the state before the call, and no other object
is written.
-/

open Pbc.Gmp Pbc.Number

namespace Pbc.Arith

section Operations

variable {ι : Type} [DecidableEq ι] (f : FpFieldData) (s : ι → DataS)

/-- The flag of an object is written. -/
def writeFlag (s : ι → DataS) (c : ι) (flag : Bool) : ι → DataS :=
  Function.update s c { s c with flag := flag }

/-- The limbs of an object are written. -/
def writeLimbs (s : ι → DataS) (c : ι) (d : ℕ) : ι → DataS :=
  Function.update s c { s c with d := d }

/-- `fp_set`. -/
def fpSetAt (c a : ι) : ι → DataS :=
  if a = c then s
  else if !(s a).flag then writeFlag s c false
  else writeFlag (writeLimbs s c (s a).d) c true

/-- The end of `fp_add` and `fp_double`, behind the sum in the limbs and its carry. -/
def reduceAt (c : ι) (carry : ℕ) : ι → DataS :=
  if carry ≠ 0 then
    writeFlag (writeLimbs s c (mpnSubN f.base f.limbs (s c).d f.order).1) c true
  else
    let i := mpnCmp (s c).d f.order
    if i = 0 then writeFlag s c false
    else
      let s := writeFlag s c true
      if i > 0 then writeLimbs s c (mpnSubN f.base f.limbs (s c).d f.order).1 else s

/-- `fp_add`. -/
def fpAddAt (c a b : ι) : ι → DataS :=
  if !(s a).flag then fpSetAt s c b
  else if !(s b).flag then fpSetAt s c a
  else
    let (d, carry) := mpnAddN f.base f.limbs (s a).d (s b).d
    reduceAt f (writeLimbs s c d) c carry

/-- `fp_double`. -/
def fpDoubleAt (c a : ι) : ι → DataS :=
  if !(s a).flag then writeFlag s c false
  else
    let (d, carry) := mpnLshift1 f.base f.limbs (s a).d
    reduceAt f (writeLimbs s c d) c carry

/-- `fp_halve`. -/
def fpHalveAt (c a : ι) : ι → DataS :=
  if !(s a).flag then writeFlag s c false
  else
    let (s, carry) :=
      if (s a).d % 2 = 1 then
        let (d, carry) := mpnAddN f.base f.limbs (s a).d f.order
        (writeLimbs s c d, carry)
      else (fpSetAt s c a, 0)
    let s := writeLimbs s c (mpnRshift1 (s c).d)
    if carry ≠ 0 then writeLimbs s c ((s c).d + f.base ^ f.limbs / 2) else s

/-- `fp_neg`. -/
def fpNegAt (c a : ι) : ι → DataS :=
  if !(s a).flag then writeFlag s c false
  else writeFlag (writeLimbs s c (mpnSubN f.base f.limbs f.order (s a).d).1) c true

/-- `fp_sub`. -/
def fpSubAt (c a b : ι) : ι → DataS :=
  if !(s a).flag then fpNegAt f s c b
  else if !(s b).flag then fpSetAt s c a
  else
    let i := mpnCmp (s a).d (s b).d
    if i = 0 then writeFlag s c false
    else
      let s := writeFlag s c true
      let s := writeLimbs s c (mpnSubN f.base f.limbs (s a).d (s b).d).1
      if i < 0 then writeLimbs s c (mpnAddN f.base f.limbs (s c).d f.order).1 else s

end Operations

section Sharing

variable {ι : Type} [DecidableEq ι] {f : FpFieldData} (s : ι → DataS) (c a b : ι)

@[simp] theorem writeFlag_update (e : DataS) (flag : Bool) :
    writeFlag (Function.update s c e) c flag = Function.update s c { e with flag := flag } := by
  rw [writeFlag, Function.update_self, Function.update_idem]

@[simp] theorem writeLimbs_update (e : DataS) (d : ℕ) :
    writeLimbs (Function.update s c e) c d = Function.update s c { e with d := d } := by
  rw [writeLimbs, Function.update_self, Function.update_idem]

/-- The flag of the destination is no limb of an operand. -/
@[simp] theorem writeFlag_limbs (flag : Bool) (i : ι) : (writeFlag s c flag i).d = (s i).d := by
  by_cases same : i = c
  · rw [same, writeFlag, Function.update_self]
  · rw [writeFlag, Function.update_of_ne same]

/-- An element that is set to itself stays as it is. -/
theorem fpSet_self (e : DataS) : fpSet e e = e := by
  obtain ⟨flag, d⟩ := e
  cases flag <;> rfl

theorem fpSetAt_eq : fpSetAt s c a = Function.update s c (fpSet (s c) (s a)) := by
  by_cases same : a = c
  · rw [fpSetAt, if_pos same, same, fpSet_self, Function.update_eq_self]
  · rw [fpSetAt, if_neg same, fpSet]
    cases (s a).flag with
    | false => rfl
    | true => exact writeFlag_update s c _ true

/-- The end of an addition writes the destination alone. -/
theorem reduceAt_eq (e : DataS) (carry : ℕ) :
    reduceAt f (Function.update s c e) c carry = Function.update s c
      (if carry ≠ 0 then ⟨true, (mpnSubN f.base f.limbs e.d f.order).1⟩
      else
        let i := mpnCmp e.d f.order
        if i = 0 then ⟨false, e.d⟩
        else if i > 0 then ⟨true, (mpnSubN f.base f.limbs e.d f.order).1⟩
        else ⟨true, e.d⟩) := by
  rw [reduceAt]
  simp only [Function.update_self, writeFlag_update, writeLimbs_update]
  split
  · rfl
  · split
    · rfl
    · split <;> rfl

theorem fpAddAt_eq : fpAddAt f s c a b = Function.update s c (fpAdd f (s c) (s a) (s b)) := by
  rw [fpAddAt, fpAdd]
  cases (s a).flag with
  | false => exact fpSetAt_eq s c b
  | true =>
    cases (s b).flag with
    | false => exact fpSetAt_eq s c a
    | true => exact reduceAt_eq s c _ _

theorem fpDoubleAt_eq : fpDoubleAt f s c a = Function.update s c (fpDouble f (s c) (s a)) := by
  rw [fpDoubleAt, fpDouble]
  cases (s a).flag with
  | false => rfl
  | true => exact reduceAt_eq s c _ _

theorem fpNegAt_eq : fpNegAt f s c a = Function.update s c (fpNeg f (s c) (s a)) := by
  rw [fpNegAt, fpNeg]
  cases (s a).flag with
  | false => rfl
  | true => exact writeFlag_update s c _ true

theorem fpSubAt_eq : fpSubAt f s c a b = Function.update s c (fpSub f (s c) (s a) (s b)) := by
  rw [fpSubAt, fpSub]
  cases (s a).flag with
  | false => exact fpNegAt_eq s c b
  | true =>
    cases (s b).flag with
    | false => exact fpSetAt_eq s c a
    | true =>
      -- The limbs are read behind the write of the flag.
      simp only [Bool.not_true, Bool.false_eq_true, if_false, writeFlag_limbs]
      split
      · rfl
      · rw [writeFlag, writeLimbs_update, writeLimbs_update, Function.update_self]
        split <;> rfl

theorem fpHalveAt_eq : fpHalveAt f s c a = Function.update s c (fpHalve f (s c) (s a)) := by
  rw [fpHalveAt, fpHalve]
  cases (s a).flag with
  | false => rfl
  | true =>
    simp only [Bool.not_true, Bool.false_eq_true, if_false]
    by_cases odd : (s a).d % 2 = 1
    · simp only [if_pos odd, writeLimbs, Function.update_self, Function.update_idem]
      split <;> rfl
    · simp only [if_neg odd, ne_eq, not_true_eq_false, if_false, fpSetAt_eq, writeLimbs_update,
        Function.update_self]

end Sharing

section Additive

variable {ι : Type} [DecidableEq ι] {impl : LimbImpl} {f : FpFieldData}

/-- Whatever objects the operands and the destination of an additive routine share, and whatever
the destination held, it comes to hold the result, and no other object is written. -/
theorem additiveAt_exact (s : ι → DataS) (c a b : ι) {x y : ZMod f.order}
    (left : impl.Holds f (s a) x) (right : impl.Holds f (s b) y) :
    (impl.Holds f (fpAddAt f s c a b c) (x + y) ∧ impl.Holds f (fpSubAt f s c a b c) (x - y) ∧
      impl.Holds f (fpDoubleAt f s c a c) (2 * x) ∧ impl.Holds f (fpNegAt f s c a c) (-x)) ∧
    ∀ i, i ≠ c → fpAddAt f s c a b i = s i ∧ fpSubAt f s c a b i = s i ∧
      fpDoubleAt f s c a i = s i ∧ fpNegAt f s c a i = s i := by
  rw [fpAddAt_eq, fpSubAt_eq, fpDoubleAt_eq, fpNegAt_eq]
  constructor
  · simp only [Function.update_self]
    rw [two_mul]
    exact ⟨LimbImpl.add_holds _ left right, LimbImpl.sub_holds _ left right,
      LimbImpl.double_holds _ left, LimbImpl.neg_holds _ left⟩
  · intro i apart
    simp only [Function.update_of_ne apart]
    trivial

private theorem shortField_positive : 0 < 8 := by decide

private theorem shortField_proper : 1 < 7 := by decide

/-- A prime of one limb. -/
def shortField : FpFieldData where
  limbBytes := 8
  order := 7
  positive := shortField_positive
  proper := shortField_proper

theorem additiveAt_exact_small :
    (LimbImpl.faster.Holds shortField
        (fpAddAt shortField ![⟨true, 5⟩, ⟨true, 4⟩] (0 : Fin 2) 0 1 0) (5 + 4) ∧
      LimbImpl.faster.Holds shortField
        (fpSubAt shortField ![⟨true, 5⟩, ⟨true, 4⟩] (0 : Fin 2) 0 1 0) (5 - 4) ∧
      LimbImpl.faster.Holds shortField
        (fpDoubleAt shortField ![⟨true, 5⟩, ⟨true, 4⟩] (0 : Fin 2) 0 0) (2 * 5) ∧
      LimbImpl.faster.Holds shortField
        (fpNegAt shortField ![⟨true, 5⟩, ⟨true, 4⟩] (0 : Fin 2) 0 0) (-5)) :=
  have left : LimbImpl.faster.Holds shortField ⟨true, 5⟩ 5 :=
    DataS.holds_mk.mpr ⟨by decide, by decide, rfl⟩
  have right : LimbImpl.faster.Holds shortField ⟨true, 4⟩ 4 :=
    DataS.holds_mk.mpr ⟨by decide, by decide, rfl⟩
  (additiveAt_exact ![⟨true, 5⟩, ⟨true, 4⟩] (0 : Fin 2) 0 1 left right).1

end Additive

section Comparison

variable {impl : LimbImpl} {f : FpFieldData}

/-- The limbs behind a set flag are those of the residue alone. -/
theorem LimbImpl.limbs_eq_iff (accepts : impl.Accepts f) {a b : DataS} {x y : ZMod f.order}
    (flag : a.flag = true) (flag' : b.flag = true) (left : impl.Holds f a x)
    (right : impl.Holds f b y) : a.d = b.d ↔ x = y := by
  obtain ⟨-, reduced, value⟩ := (DataS.holds_set flag).mp (holds_iff.mp left)
  obtain ⟨-, reduced', value'⟩ := (DataS.holds_set flag').mp (holds_iff.mp right)
  rw [← natCast_eq_iff reduced reduced', value, value', (isUnit_scale accepts).mul_left_inj]

theorem fpCmp_clear {a b : DataS} (flag : a.flag = false) : fpCmp a b = 0 ↔ b.flag = false := by
  rw [fpCmp, flag]
  cases b.flag <;> simp

theorem fpCmp_set {a b : DataS} (flag : a.flag = true) : fpCmp a b = 0 ↔ a.d = b.d := by
  rw [fpCmp, flag]
  exact mpnCmp_eq_zero

/-- The comparison tells whether two residues are equal exactly when it is not misled by the limbs
behind the clear flag of its second operand. -/
theorem fpCmp_exact_iff (accepts : impl.Accepts f) {a b : DataS} {x y : ZMod f.order}
    (left : impl.Holds f a x) (right : impl.Holds f b y) :
    (fpCmp a b = 0 ↔ x = y) ↔ ¬(a.flag = true ∧ b.flag = false ∧ a.d = b.d) := by
  have zero := LimbImpl.flag_iff accepts left
  have zero' := LimbImpl.flag_iff accepts right
  cases flag : a.flag with
  | false =>
    obtain rfl := zero.mp flag
    rw [fpCmp_clear flag, zero', eq_comm]
    exact iff_of_true Iff.rfl fun misled => Bool.false_ne_true misled.1
  | true =>
    have proper : x ≠ 0 := by
      intro equal
      rw [zero.mpr equal] at flag
      exact Bool.false_ne_true flag
    rw [fpCmp_set flag]
    cases flag' : b.flag with
    | false =>
      obtain rfl := zero'.mp flag'
      simp [proper]
    | true =>
      rw [LimbImpl.limbs_eq_iff accepts flag flag' left right]
      simp

/-- An element that is one, and one that was one before it was set to zero. -/
private theorem cmp_set0 {a : DataS} {x : ZMod f.order} (accepts : impl.Accepts f)
    (flag : a.flag = true) (holds : impl.Holds f a x) :
    ¬∀ (a b : DataS) (x y : ZMod f.order), impl.Holds f a x → impl.Holds f b y →
      (fpCmp a b = 0 ↔ x = y) := by
  intro right
  have equal : x = 0 := (right a (fpSet0 a) x 0 holds (LimbImpl.holds_zero rfl)).mp
    ((fpCmp_set flag).mpr rfl)
  rw [(LimbImpl.flag_iff accepts holds).mpr equal] at flag
  exact Bool.false_ne_true flag

theorem fpCmp_exact_small :
    (fpCmp ⟨true, 5⟩ ⟨true, 4⟩ = 0 ↔ (5 : ZMod shortField.order) = 4) ↔
      ¬((true = true) ∧ (true = false) ∧ 5 = 4) :=
  have accepts : LimbImpl.faster.Accepts shortField := trivial
  have left : LimbImpl.faster.Holds shortField ⟨true, 5⟩ 5 :=
    DataS.holds_mk.mpr ⟨by decide, by decide, rfl⟩
  have right : LimbImpl.faster.Holds shortField ⟨true, 4⟩ 4 :=
    DataS.holds_mk.mpr ⟨by decide, by decide, rfl⟩
  fpCmp_exact_iff accepts left right

/-- In either implementation one is taken for a zero that was set from one. -/
theorem fpCmp_wrong :
    (¬∀ (a b : DataS) (x y : ZMod smallLimbField.order), LimbImpl.faster.Holds smallLimbField a x →
      LimbImpl.faster.Holds smallLimbField b y → (fpCmp a b = 0 ↔ x = y)) ∧
    ¬∀ (a b : DataS) (x y : ZMod smallLimbField.order), LimbImpl.mont.Holds smallLimbField a x →
      LimbImpl.mont.Holds smallLimbField b y → (fpCmp a b = 0 ↔ x = y) := by
  have odd : smallLimbField.order % 2 = 1 := by decide
  constructor
  · have accepts : LimbImpl.faster.Accepts smallLimbField := trivial
    exact cmp_set0 accepts rfl (fasterSet1_holds (fpInit 0))
  · have accepts : LimbImpl.mont.Accepts smallLimbField := odd
    exact cmp_set0 accepts rfl (montSet1_holds odd (fpInit 0))

end Comparison

section Halving

variable {ι : Type} [DecidableEq ι] {impl : LimbImpl} {f : FpFieldData}

/-- `fp_to_mpz` of an implementation. -/
def LimbImpl.toMpz (f : FpFieldData) : LimbImpl → DataS → Option ℕ
  | faster, e => some (fasterToMpz e)
  | mont, e => montToMpzAt f e

/-- Two elements that tests, comparisons with others, sums and `element_to_mpz` do not tell
apart. -/
structure LimbImpl.Alike (impl : LimbImpl) (f : FpFieldData) (e b : DataS) : Prop where
  is0 : fpIs0 e = fpIs0 b
  equal : fpCmp e b = 0
  cmp : ∀ g, fpCmp e g = fpCmp b g
  add : ∀ c g, fpAdd f c e g = fpAdd f c b g
  toMpz : impl.toMpz f e = impl.toMpz f b

/-- Elements that hold one residue are alike. -/
theorem LimbImpl.alike_of_holds (accepts : impl.Accepts f) {e b : DataS} {y : ZMod f.order}
    (left : impl.Holds f e y) (right : impl.Holds f b y) : impl.Alike f e b := by
  have zero := flag_iff accepts left
  have zero' := flag_iff accepts right
  obtain ⟨flag, d⟩ := e
  obtain ⟨flag', d'⟩ := b
  cases flag with
  | false =>
    obtain rfl : flag' = false := zero'.mpr (zero.mp rfl)
    refine ⟨rfl, rfl, fun g => rfl, fun c g => rfl, ?_⟩
    cases impl with
    | faster => rfl
    | mont => rfl
  | true =>
    obtain rfl : flag' = true := by
      cases flag' with
      | false => exact absurd (zero.mpr (zero'.mp rfl)) (Ne.symm Bool.false_ne_true)
      | true => rfl
    obtain rfl : d = d' := (limbs_eq_iff accepts rfl rfl left right).mpr rfl
    exact ⟨rfl, (fpCmp_set rfl).mpr rfl, fun g => rfl, fun c g => rfl, rfl⟩

/-- Every residue is held by some element. -/
theorem LimbImpl.exists_holds (impl : LimbImpl) (y : ZMod f.order) : ∃ b, impl.Holds f b y := by
  have : NeZero f.order := ⟨f.order_pos.ne'⟩
  by_cases zero : y * impl.scale f = 0
  · exact ⟨⟨false, 0⟩, holds_iff.mpr ((DataS.holds_clear rfl).mpr zero)⟩
  · refine ⟨⟨true, (y * impl.scale f).val⟩, holds_iff.mpr (DataS.holds_mk.mpr ⟨?_, ?_, ?_⟩)⟩
    · exact Nat.pos_of_ne_zero fun none => zero ((ZMod.val_eq_zero _).mp none)
    · exact ZMod.val_lt _
    · exact ZMod.natCast_zmod_val _

/-- Half of a residue is in the element: it is alike to every other that holds the half, and its
double holds the residue. -/
def LimbImpl.HoldsHalf (impl : LimbImpl) (f : FpFieldData) (e : DataS) (x : ZMod f.order) : Prop :=
  ∃ y, y + y = x ∧ (∀ b, impl.Holds f b y → impl.Alike f e b) ∧
    ∀ c, impl.Holds f (fpDouble f c e) x

/-- An element whose flag is clear is no half of an element whose flag is set. -/
theorem LimbImpl.not_holdsHalf (accepts : impl.Accepts f) {a e : DataS} {x : ZMod f.order}
    (holds : impl.Holds f a x) (flag : a.flag = true) (clear : e.flag = false) :
    ¬impl.HoldsHalf f e x := by
  rintro ⟨y, twice, alike, -⟩
  obtain ⟨b, held⟩ := exists_holds impl y
  have same := (alike b held).is0
  rw [fpIs0, fpIs0, clear] at same
  have zero : y = 0 := (flag_iff accepts held).mp (Bool.not_inj same).symm
  have none : x = 0 := by rw [← twice, zero, add_zero]
  rw [(flag_iff accepts holds).mpr none] at flag
  exact Bool.false_ne_true flag

/-- A fresh destination is not marked. -/
private theorem halve_fresh (accepts : impl.Accepts f) {e : DataS} {x : ZMod f.order}
    (holds : impl.Holds f e x) (flag : e.flag = true) (rest : e.d % 2 = 1) :
    ¬∀ (s : Fin 2 → DataS) (x : ZMod f.order), impl.Holds f (s 1) x →
      impl.HoldsHalf f (fpHalveAt f s 0 1 0) x := by
  intro right
  refine LimbImpl.not_holdsHalf accepts holds flag ?_ (right ![fpInit 0, e] x holds)
  rw [fpHalveAt_eq, Function.update_self, fpHalve, if_neg (by simp [flag]), if_pos (by simpa using rest)]
  rfl

end Halving

end Pbc.Arith
