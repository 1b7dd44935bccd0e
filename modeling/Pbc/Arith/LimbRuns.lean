import Pbc.Arith.MontFp

/-!
# Runs of the flagged implementations

Programs over the objects of a field that one of the two flagged implementations
serves. A step that meets its condition computes with the residues of its operands
and leaves the flag and the limbs of its destination in step with the result.
-/

open Pbc.Gmp Pbc.Number

namespace Pbc.Arith

section Operations

/-- The entries of the method table in which the two implementations differ; the
destination comes first. -/
structure FlaggedMethods where
  set1 : DataS → DataS
  is1 : DataS → Bool
  setSi : DataS → ℤ → DataS
  setMpz : DataS → ℤ → DataS
  setStr : DataS → List Char → ℤ → DataS
  fromBytes : DataS → List UInt8 → DataS
  fromHash : DataS → List UInt8 → Option DataS
  random : DataS → ℕ → DataS
  mul : DataS → DataS → DataS → Option DataS
  square : DataS → DataS → Option DataS
  mulSi : DataS → DataS → ℤ → Option DataS
  powMpz : DataS → DataS → ℕ → Option DataS
  invert : DataS → DataS → Option DataS

variable (f : FpFieldData)

/-- The arrays of a routine, sized by `MAX_LIMBS`, hold the limbs of the modulus. -/
def FpFieldData.arrays (used : Bool) : Option Unit :=
  if used && maxLimbs < f.limbs then none else some ()

/-- `field_init_faster_fp`. Its `set_str` is the default one, which stores zero. -/
def fasterMethods : FlaggedMethods where
  set1 := fasterSet1
  is1 := fasterIs1
  setSi := fasterSetSi f
  setMpz := fasterSetMpz f
  setStr e _ _ := fpSet0 e
  fromBytes := fasterFromBytes f
  fromHash := fasterFromHash f
  random := fasterRandom
  mul c a b := do
    f.arrays (a.flag && b.flag)
    return fasterMul f c a b
  square c a := some (fasterSquare f c a)
  mulSi c a op := do
    f.arrays (a.flag && op ≠ 0)
    return fasterMulSi f c a op
  powMpz c a op := some (fasterPowMpz f c a op)
  invert := fasterInvert f

/-- `fp_mul` of the Montgomery implementation, with its array. -/
def montMethodsMul (c a b : DataS) : Option DataS := do
  f.arrays (a.flag && b.flag)
  return montFpMul f c a b

/-- `field_init_mont_fp`. Squares and products with machine integers are the generic
ones. -/
def montMethods : FlaggedMethods where
  set1 := montSet1 f
  is1 := montIs1 f
  setSi := montSetSi f
  setMpz := montSetMpz f
  setStr := montSetStr f
  fromBytes := montFromBytes f
  fromHash := montFromHash f
  random := montRandom f
  mul := montMethodsMul f
  square c a := montMethodsMul f c a a
  mulSi c a op := montMethodsMul f c a (montSetSi f (fpInit 0) op)
  powMpz c a op := do
    f.arrays a.flag
    montPowMpz f c a op
  invert c a := do
    f.arrays true
    montInvert f c a

/-- The two implementations. -/
inductive LimbImpl where
  | faster
  | mont
  deriving DecidableEq

/-- The method table of an implementation. -/
def LimbImpl.methods : LimbImpl → FlaggedMethods
  | faster => fasterMethods f
  | mont => montMethods f

/-- The moduli that `field_init_fp` hands to an implementation. -/
def LimbImpl.Accepts : LimbImpl → Prop
  | faster => True
  | mont => f.order % 2 = 1

/-- The limb `negpinv` is the negative inverse of the modulus. -/
def LimbImpl.Constant : LimbImpl → Prop
  | faster => True
  | mont => montNegpinv f * f.order % f.base = f.base - 1

/-- An element holds a residue, in the form of its implementation. -/
def LimbImpl.Holds : LimbImpl → DataS → ZMod f.order → Prop
  | faster => DataS.Holds f
  | mont => DataS.MontHolds f

end Operations

section Programs

/-- The operations on objects, the destination first. -/
inductive LimbOp (ι : Type) where
  | init (n : ι) (garbage : ℕ)
  | set0 (n : ι)
  | set1 (n : ι)
  | setSi (n : ι) (op : ℤ)
  | setMpz (n : ι) (z : ℤ)
  | setStr (n : ι) (s : List Char) (base : ℤ)
  | fromBytes (n : ι) (data : List UInt8)
  | fromHash (n : ι) (data : List UInt8)
  | random (n : ι) (z : ℕ)
  | set (n a : ι)
  | add (n a b : ι)
  | sub (n a b : ι)
  | mul (n a b : ι)
  | mulMpz (n a : ι) (z : ℤ)
  | mulSi (n a : ι) (op : ℤ)
  | square (n a : ι)
  | double (n a : ι)
  | halve (n a : ι)
  | neg (n a : ι)
  | invert (n a : ι)
  | powMpz (n a : ι) (op : ℕ)

variable {ι : Type}

/-- The destination of an operation. -/
def LimbOp.destination : LimbOp ι → ι
  | init n _ | set0 n | set1 n | setSi n _ | setMpz n _ | setStr n _ _ | fromBytes n _
  | fromHash n _ | random n _ | set n _ | add n _ _ | sub n _ _ | mul n _ _ | mulMpz n _ _
  | mulSi n _ _ | square n _ | double n _ | halve n _ | neg n _ | invert n _ | powMpz n _ _ => n

variable (impl : LimbImpl) (f : LimbField)

/-- What an operation leaves in its destination. -/
def LimbOp.result (s : ι → DataS) : LimbOp ι → Option DataS
  | init _ garbage => some (fpInit garbage)
  | set0 n => some (fpSet0 (s n))
  | set1 n => some ((impl.methods f).set1 (s n))
  | setSi n op => some ((impl.methods f).setSi (s n) op)
  | setMpz n z => some ((impl.methods f).setMpz (s n) z)
  | setStr n str base => some ((impl.methods f).setStr (s n) str base)
  | fromBytes n data => some ((impl.methods f).fromBytes (s n) data)
  | fromHash n data => (impl.methods f).fromHash (s n) data
  | random n z => some ((impl.methods f).random (s n) z)
  | set n a => some (fpSet (s n) (s a))
  | add n a b => some (fpAdd f (s n) (s a) (s b))
  | sub n a b => some (fpSub f (s n) (s a) (s b))
  | mul n a b => (impl.methods f).mul (s n) (s a) (s b)
  | mulMpz n a z => (impl.methods f).mul (s n) (s a) ((impl.methods f).setMpz (fpInit 0) z)
  | mulSi n a op => (impl.methods f).mulSi (s n) (s a) op
  | square n a => (impl.methods f).square (s n) (s a)
  | double n a => some (fpDouble f (s n) (s a))
  | halve n a => some (fpHalve f (s n) (s a))
  | neg n a => some (fpNeg f (s n) (s a))
  | invert n a => (impl.methods f).invert (s n) (s a)
  | powMpz n a op => (impl.methods f).powMpz (s n) (s a) op

/-- The residue that an operation stands for. -/
def LimbOp.Value (v : ι → ZMod f.order) (x : ZMod f.order) : LimbOp ι → Prop
  | init _ _ => x = 0
  | set0 _ => x = 0
  | set1 _ => x = 1
  | setSi _ op => x = op
  | setMpz _ z => x = z
  | setStr _ s base =>
      match impl with
      | .faster => x = 0
      | .mont => x = (pbcMpzSetStr s base).1
  | fromBytes _ data => x = (mpzImport (data.take (fixedLengthInBytes f.order)) : ℕ)
  | fromHash _ data => ∃ z, pbcMpzFromHash f.order data = some z ∧ x = z
  | random _ z => x = z
  | set _ a => x = v a
  | add _ a b => x = v a + v b
  | sub _ a b => x = v a - v b
  | mul _ a b => x = v a * v b
  | mulMpz _ a z => x = v a * z
  | mulSi _ a op => x = v a * op
  | square _ a => x = v a * v a
  | double _ a => x = v a + v a
  | halve _ a => x + x = v a
  | neg _ a => x = -v a
  | invert _ a => x * v a = 1
  | powMpz _ a op => x = v a ^ op

/-- A machine integer: `signed long` has as many bits as a limb. -/
def LimbField.IsLong (op : ℤ) : Prop := -(f.base / 2 : ℕ) ≤ op ∧ op < (f.base / 2 : ℕ)

/-- The product of the limbs of two nonzero elements fits the arrays, is not a multiple
of the modulus, and loses no carry in Montgomery's loop. -/
def LimbImpl.ProductFits (f : FpFieldData) (a b : DataS) : Prop :=
  a.flag = true → b.flag = true → f.limbs ≤ maxLimbs ∧ ¬f.order ∣ a.d * b.d ∧
    (impl = .mont → MontFits f.base f.order (montNegpinv f) f.limbs a.d b.d)

/-- The condition on a step, on its data and on the state before it. -/
def LimbOp.Meets (s : ι → DataS) : LimbOp ι → Prop
  | setSi _ op => f.IsLong op
  | setMpz _ z => z = 0 ∨ ¬(f.order : ℤ) ∣ z
  | fromBytes _ data =>
      match impl with
      | .faster => mpzImport (data.take (fixedLengthInBytes f.order)) < f.order
      | .mont => mpzImport (data.take (fixedLengthInBytes f.order)) = 0 ∨
          ¬f.order ∣ mpzImport (data.take (fixedLengthInBytes f.order))
  | fromHash _ data => byteCount f.order ≤ 2 * maxLimbs ∧
      ∀ k, mpzImport (hashBuf (byteCount f.order) data) / 2 ^ k ≠ f.order
  | random _ z => z < f.order
  | mul _ a b => impl.ProductFits f (s a) (s b)
  | mulMpz _ a z => (z = 0 ∨ ¬(f.order : ℤ) ∣ z) ∧
      impl.ProductFits f (s a) ((impl.methods f).setMpz (fpInit 0) z)
  | mulSi _ a op => f.IsLong op ∧
      match impl with
      | .faster => (s a).flag = true → op ≠ 0 → f.limbs ≤ maxLimbs ∧
          ¬f.order ∣ (s a).d * op.natAbs
      | .mont => impl.ProductFits f (s a) (montSetSi f (fpInit 0) op)
  | square _ a =>
      match impl with
      | .faster => (s a).flag = true → ¬f.order ∣ (s a).d * (s a).d
      | .mont => impl.ProductFits f (s a) (s a)
  | halve n a => (s a).flag = true → (s a).d % 2 = 1 → (s n).flag = true ∧ f.order % 2 = 1
  | invert _ a => (s a).flag = true ∧ Nat.gcd (s a).d f.order = 1 ∧
      (impl = .mont → f.limbs ≤ maxLimbs ∧ ∀ z, mpzInvert f.order (s a).d = some z →
        MontFits f.base f.order (montNegpinv f) f.limbs z.toNat (montR3 f))
  | powMpz _ a op => ((s a).flag = false → op ≠ 0) ∧ ((s a).flag = true → ¬f.order ∣ (s a).d ^ op) ∧
      (impl = .mont → (s a).flag = true → f.limbs ≤ maxLimbs)
  | _ => True

variable [DecidableEq ι]

/-- One operation on the objects of a program. -/
def limbStep (s : ι → DataS) (op : LimbOp ι) : Option (ι → DataS) :=
  (op.result impl f s).map (Function.update s op.destination)

/-- A sequence of operations each of which meets its condition. -/
inductive LimbRun : (ι → DataS) → List (LimbOp ι) → (ι → DataS) → Prop where
  | nil (s : ι → DataS) : LimbRun s [] s
  | cons {s s' s'' : ι → DataS} {op : LimbOp ι} {ops : List (LimbOp ι)} (meets : op.Meets impl f s)
      (step : limbStep impl f s op = some s') (rest : LimbRun s' ops s'') : LimbRun s (op :: ops) s''

/-- The sequence of the same operations on residues. -/
inductive ResidueRun : (ι → ZMod f.order) → List (LimbOp ι) → (ι → ZMod f.order) → Prop where
  | nil (v : ι → ZMod f.order) : ResidueRun v [] v
  | cons {v v' : ι → ZMod f.order} {x : ZMod f.order} {op : LimbOp ι} {ops : List (LimbOp ι)}
      (value : op.Value impl f v x)
      (rest : ResidueRun (Function.update v op.destination x) ops v') : ResidueRun v (op :: ops) v'

end Programs

section Additive

variable {impl : LimbImpl} {f : FpFieldData}

/-- The factor between the limbs and the residue. -/
def LimbImpl.scale (f : FpFieldData) : LimbImpl → ZMod f.order
  | faster => 1
  | mont => f.base ^ f.limbs

theorem LimbImpl.holds_iff {a : DataS} {x : ZMod f.order} :
    impl.Holds f a x ↔ a.Holds f (x * impl.scale f) := by
  cases impl with
  | faster =>
    show _ ↔ a.Holds f (x * 1)
    rw [mul_one]
    rfl
  | mont => exact Iff.rfl

theorem LimbImpl.isUnit_scale (accepts : impl.Accepts f) : IsUnit (impl.scale f) := by
  cases impl with
  | faster => exact isUnit_one
  | mont => exact isUnit_area accepts

variable {a b : DataS} {x y : ZMod f.order}

/-- The flag is clear exactly for the residue zero. -/
theorem LimbImpl.flag_iff (accepts : impl.Accepts f) (holds : impl.Holds f a x) :
    a.flag = false ↔ x = 0 := by
  rw [(holds_iff.mp holds).flag_iff, (isUnit_scale accepts).mul_left_eq_zero]

/-- With the flag set the limbs are a reduced positive number. -/
theorem LimbImpl.limbs_reduced (holds : impl.Holds f a x) (flag : a.flag = true) :
    0 < a.d ∧ a.d < f.order := by
  obtain ⟨positive, reduced, -⟩ := (DataS.holds_set flag).mp (holds_iff.mp holds)
  exact ⟨positive, reduced⟩

theorem LimbImpl.holds_zero (flag : a.flag = false) : impl.Holds f a 0 := by
  rw [holds_iff, DataS.holds_clear flag, zero_mul]

theorem LimbImpl.set_holds (c : DataS) (holds : impl.Holds f a x) : impl.Holds f (fpSet c a) x :=
  holds_iff.mpr (fpSet_holds c (holds_iff.mp holds))

theorem LimbImpl.add_holds (c : DataS) (left : impl.Holds f a x) (right : impl.Holds f b y) :
    impl.Holds f (fpAdd f c a b) (x + y) := by
  rw [holds_iff] at left right ⊢
  rw [add_mul]
  exact fpAdd_holds c left right

theorem LimbImpl.sub_holds (c : DataS) (left : impl.Holds f a x) (right : impl.Holds f b y) :
    impl.Holds f (fpSub f c a b) (x - y) := by
  rw [holds_iff] at left right ⊢
  rw [sub_mul]
  exact fpSub_holds c left right

theorem LimbImpl.double_holds (c : DataS) (holds : impl.Holds f a x) :
    impl.Holds f (fpDouble f c a) (x + x) := by
  rw [holds_iff] at holds ⊢
  rw [add_mul]
  exact fpDouble_holds c holds

theorem LimbImpl.neg_holds (c : DataS) (holds : impl.Holds f a x) :
    impl.Holds f (fpNeg f c a) (-x) := by
  rw [holds_iff] at holds ⊢
  rw [neg_mul]
  exact fpNeg_holds c holds

theorem LimbImpl.halve_holds (accepts : impl.Accepts f) {c : DataS} (holds : impl.Holds f a x)
    (ready : a.flag = true → a.d % 2 = 1 → c.flag = true ∧ f.order % 2 = 1) :
    ∃ y, impl.Holds f (fpHalve f c a) y ∧ y + y = x := by
  obtain ⟨z, half, double⟩ := fpHalve_holds (holds_iff.mp holds) ready
  obtain ⟨unit, scale⟩ := isUnit_scale accepts
  refine ⟨z * (unit⁻¹ : (ZMod f.order)ˣ), ?_, ?_⟩
  · rw [holds_iff, ← scale, Units.inv_mul_cancel_right]
    exact half
  · rw [← add_mul, double, ← scale, Units.mul_inv_cancel_right]

end Additive

section Multiplicative

variable {impl : LimbImpl} {f : FpFieldData} {a b : DataS} {x y : ZMod f.order}

theorem LimbImpl.is1_iff (accepts : impl.Accepts f) (holds : impl.Holds f a x) :
    (impl.methods f).is1 a = true ↔ x = 1 := by
  cases impl with
  | faster => exact fasterIs1_eq holds
  | mont => exact montIs1_eq accepts holds

theorem FpFieldData.arrays_of_fits (f : FpFieldData) {used : Bool} (fits : used = true → f.limbs ≤ maxLimbs) :
    f.arrays used = some () := by
  rw [arrays]
  cases used with
  | false => rfl
  | true => exact if_neg (by simpa using fits rfl)

theorem LimbImpl.mul_holds (accepts : impl.Accepts f) (constant : impl.Constant f) (c : DataS)
    (left : impl.Holds f a x) (right : impl.Holds f b y) (fits : impl.ProductFits f a b) :
    ∃ e, (impl.methods f).mul c a b = some e ∧ impl.Holds f e (x * y) := by
  have room : f.arrays (a.flag && b.flag) = some () :=
    f.arrays_of_fits fun used => by
      rw [Bool.and_eq_true] at used
      exact (fits used.1 used.2).1
  cases impl with
  | faster =>
    refine ⟨fasterMul f c a b, by simp [LimbImpl.methods, fasterMethods, room], ?_⟩
    exact fasterMul_holds c left right fun flag flag' => (fits flag flag').2.1
  | mont =>
    refine ⟨montFpMul f c a b, by simp [LimbImpl.methods, montMethods, montMethodsMul, room], ?_⟩
    exact montFpMul_holds accepts constant c left right fun flag flag' =>
      ⟨(fits flag flag').2.1, (fits flag flag').2.2 rfl⟩

theorem LimbImpl.setMpz_holds (accepts : impl.Accepts f) (e : DataS) {z : ℤ}
    (nonzero : z = 0 ∨ ¬(f.order : ℤ) ∣ z) : impl.Holds f ((impl.methods f).setMpz e z) z := by
  cases impl with
  | faster => exact fasterSetMpz_holds e nonzero
  | mont => exact montSetMpz_holds accepts e nonzero

theorem LimbField.IsLong.natAbs_lt {f : LimbField} {op : ℤ} (long : f.IsLong op) : op.natAbs < f.base := by
  have large := f.one_lt_base
  obtain ⟨lower, upper⟩ := long
  omega

theorem LimbImpl.setSi_holds {f : LimbField} (accepts : impl.Accepts f) (e : DataS) {op : ℤ} (long : f.IsLong op) :
    impl.Holds f ((impl.methods f).setSi e op) op := by
  cases impl with
  | faster => exact fasterSetSi_holds e long.natAbs_lt
  | mont => exact montSetSi_holds accepts e long.natAbs_lt

theorem LimbImpl.fromHash_holds (accepts : impl.Accepts f) (e : DataS) {data : List UInt8}
    (fits : byteCount f.order ≤ 2 * maxLimbs)
    (different : ∀ k, mpzImport (hashBuf (byteCount f.order) data) / 2 ^ k ≠ f.order) :
    ∃ c z, (impl.methods f).fromHash e data = some c ∧ pbcMpzFromHash f.order data = some z ∧
      impl.Holds f c z := by
  obtain ⟨z, hashed⟩ : ∃ z, pbcMpzFromHash f.order data = some z := ⟨_, if_pos fits⟩
  obtain ⟨-, below⟩ := zpFromHash_lt different (congrArg (Option.map Nat.cast) hashed)
  have nonzero : (z : ℤ) = 0 ∨ ¬(f.order : ℤ) ∣ z := by
    rcases Nat.eq_zero_or_pos z with zero | positive
    · exact Or.inl (by exact_mod_cast zero)
    · refine Or.inr fun multiple => ?_
      have large := Nat.le_of_dvd positive (Int.natCast_dvd_natCast.mp multiple)
      omega
  have stored := setMpz_holds accepts e nonzero
  rw [Int.cast_natCast] at stored
  refine ⟨_, z, ?_, hashed, stored⟩
  cases impl with
  | faster =>
    show fasterFromHash f e data = _
    rw [fasterFromHash, hashed]
    rfl
  | mont =>
    show montFromHash f e data = _
    rw [montFromHash, hashed]
    rfl

end Multiplicative

section Steps

variable {impl : LimbImpl} {f : LimbField} {ι : Type} {s : ι → DataS} {v : ι → ZMod f.order}

theorem LimbOp.mulSi_result (accepts : impl.Accepts f) (constant : impl.Constant f)
    (holds : ∀ i, impl.Holds f (s i) (v i)) {n a : ι} {op : ℤ}
    (meets : (.mulSi n a op : LimbOp ι).Meets impl f s) :
    ∃ e x, (.mulSi n a op : LimbOp ι).result impl f s = some e ∧
      (.mulSi n a op : LimbOp ι).Value impl f v x ∧ impl.Holds f e x := by
  obtain ⟨long, fits⟩ := meets
  cases impl with
  | faster =>
    have room : f.arrays ((s a).flag && op ≠ 0) = some () :=
      f.arrays_of_fits fun used => by
        rw [Bool.and_eq_true, decide_eq_true_iff] at used
        exact (fits used.1 used.2).1
    refine ⟨fasterMulSi f (s n) (s a) op, _, ?_, rfl, ?_⟩
    · simp only [LimbOp.result, LimbImpl.methods, fasterMethods, room]
      rfl
    · exact fasterMulSi_holds (s n) (holds a) fun flag nonzero => (fits flag nonzero).2
  | mont =>
    obtain ⟨e, run, held⟩ := LimbImpl.mul_holds accepts constant (s n) (holds a)
      (LimbImpl.setSi_holds accepts (fpInit 0) long) fits
    exact ⟨e, _, run, rfl, held⟩

theorem LimbOp.square_result (accepts : impl.Accepts f) (constant : impl.Constant f)
    (holds : ∀ i, impl.Holds f (s i) (v i)) {n a : ι}
    (meets : (.square n a : LimbOp ι).Meets impl f s) :
    ∃ e x, (.square n a : LimbOp ι).result impl f s = some e ∧
      (.square n a : LimbOp ι).Value impl f v x ∧ impl.Holds f e x := by
  cases impl with
  | faster =>
    refine ⟨fasterSquare f (s n) (s a), _, rfl, rfl, ?_⟩
    rw [fasterSquare_eq]
    exact fasterMul_holds (s n) (holds a) (holds a) fun flag _ => meets flag
  | mont =>
    obtain ⟨e, run, held⟩ := LimbImpl.mul_holds accepts constant (s n) (holds a) (holds a) meets
    exact ⟨e, _, run, rfl, held⟩

theorem LimbOp.invert_result (accepts : impl.Accepts f) (constant : impl.Constant f)
    (holds : ∀ i, impl.Holds f (s i) (v i)) {n a : ι}
    (meets : (.invert n a : LimbOp ι).Meets impl f s) :
    ∃ e x, (.invert n a : LimbOp ι).result impl f s = some e ∧
      (.invert n a : LimbOp ι).Value impl f v x ∧ impl.Holds f e x := by
  obtain ⟨flag, coprime, fits⟩ := meets
  cases impl with
  | faster =>
    obtain ⟨e, y, run, held, product⟩ := fasterInvert_holds (s n) (holds a) flag coprime
    exact ⟨e, y, run, product, held⟩
  | mont =>
    obtain ⟨room, carries⟩ := fits rfl
    obtain ⟨e, y, run, held, product⟩ :=
      montInvert_holds accepts constant (s n) (holds a) flag coprime carries
    refine ⟨e, y, ?_, product, held⟩
    simp only [LimbOp.result, LimbImpl.methods, montMethods,
      f.arrays_of_fits fun _ : true = true => room]
    exact run

theorem LimbOp.powMpz_result (accepts : impl.Accepts f) (constant : impl.Constant f)
    (holds : ∀ i, impl.Holds f (s i) (v i)) {n a : ι} {op : ℕ}
    (meets : (.powMpz n a op : LimbOp ι).Meets impl f s) :
    ∃ e x, (.powMpz n a op : LimbOp ι).result impl f s = some e ∧
      (.powMpz n a op : LimbOp ι).Value impl f v x ∧ impl.Holds f e x := by
  obtain ⟨zero, nonzero, room⟩ := meets
  cases impl with
  | faster => exact ⟨_, _, rfl, rfl, fasterPowMpz_holds (s n) (holds a) zero nonzero⟩
  | mont =>
    obtain ⟨e, run, held⟩ := montPowMpz_holds accepts constant (s n) (holds a) zero nonzero
    refine ⟨e, _, ?_, rfl, held⟩
    simp only [LimbOp.result, LimbImpl.methods, montMethods, f.arrays_of_fits (room rfl)]
    exact run

/-- A step that meets its condition returns, and its result holds its residue. -/
theorem LimbOp.result_holds (accepts : impl.Accepts f) (constant : impl.Constant f)
    (holds : ∀ i, impl.Holds f (s i) (v i)) {op : LimbOp ι} (meets : op.Meets impl f s) :
    ∃ e x, op.result impl f s = some e ∧ op.Value impl f v x ∧ impl.Holds f e x := by
  cases op with
  | init n garbage => exact ⟨_, 0, rfl, rfl, LimbImpl.holds_zero rfl⟩
  | set0 n => exact ⟨_, 0, rfl, rfl, LimbImpl.holds_zero rfl⟩
  | set1 n =>
    refine ⟨_, 1, rfl, rfl, ?_⟩
    cases impl with
    | faster => exact fasterSet1_holds (s n)
    | mont => exact montSet1_holds accepts (s n)
  | setSi n op => exact ⟨_, op, rfl, rfl, LimbImpl.setSi_holds accepts (s n) meets⟩
  | setMpz n z => exact ⟨_, z, rfl, rfl, LimbImpl.setMpz_holds accepts (s n) meets⟩
  | setStr n str base =>
    cases impl with
    | faster => exact ⟨_, 0, rfl, rfl, LimbImpl.holds_zero rfl⟩
    | mont => exact ⟨_, _, rfl, rfl, montSetStr_holds accepts (s n) str base⟩
  | fromBytes n data =>
    refine ⟨_, _, rfl, rfl, ?_⟩
    cases impl with
    | faster => exact fasterFromBytes_holds (s n) meets
    | mont => exact montFromBytes_holds accepts (s n) meets
  | fromHash n data =>
    obtain ⟨c, z, run, hashed, held⟩ := LimbImpl.fromHash_holds accepts (s n) meets.1 meets.2
    exact ⟨c, z, run, ⟨z, hashed, rfl⟩, held⟩
  | random n z =>
    refine ⟨_, z, rfl, rfl, ?_⟩
    cases impl with
    | faster => exact fasterRandom_holds (s n) meets
    | mont => exact montRandom_holds accepts (s n) meets
  | set n a => exact ⟨_, _, rfl, rfl, LimbImpl.set_holds (s n) (holds a)⟩
  | add n a b => exact ⟨_, _, rfl, rfl, LimbImpl.add_holds (s n) (holds a) (holds b)⟩
  | sub n a b => exact ⟨_, _, rfl, rfl, LimbImpl.sub_holds (s n) (holds a) (holds b)⟩
  | mul n a b =>
    obtain ⟨e, run, held⟩ := LimbImpl.mul_holds accepts constant (s n) (holds a) (holds b) meets
    exact ⟨e, _, run, rfl, held⟩
  | mulMpz n a z =>
    obtain ⟨e, run, held⟩ := LimbImpl.mul_holds accepts constant (s n) (holds a)
      (LimbImpl.setMpz_holds accepts (fpInit 0) meets.1) meets.2
    exact ⟨e, _, run, rfl, held⟩
  | mulSi n a op => exact mulSi_result accepts constant holds meets
  | square n a => exact square_result accepts constant holds meets
  | double n a => exact ⟨_, _, rfl, rfl, LimbImpl.double_holds (s n) (holds a)⟩
  | halve n a =>
    obtain ⟨y, held, double⟩ := LimbImpl.halve_holds accepts (holds a) meets
    exact ⟨_, y, rfl, double, held⟩
  | neg n a => exact ⟨_, _, rfl, rfl, LimbImpl.neg_holds (s n) (holds a)⟩
  | invert n a => exact invert_result accepts constant holds meets
  | powMpz n a op => exact powMpz_result accepts constant holds meets

variable [DecidableEq ι]

theorem limbStep_holds (accepts : impl.Accepts f) (constant : impl.Constant f)
    (holds : ∀ i, impl.Holds f (s i) (v i)) {op : LimbOp ι} (meets : op.Meets impl f s) :
    ∃ s' x, limbStep impl f s op = some s' ∧ op.Value impl f v x ∧
      ∀ i, impl.Holds f (s' i) (Function.update v op.destination x i) := by
  obtain ⟨e, x, run, value, held⟩ := op.result_holds accepts constant holds meets
  refine ⟨Function.update s op.destination e, x, by rw [limbStep, run]; rfl, value, fun i => ?_⟩
  by_cases same : i = op.destination
  · rw [same, Function.update_self, Function.update_self]
    exact held
  · rw [Function.update_of_ne same, Function.update_of_ne same]
    exact holds i

/-- A run whose steps meet their conditions follows the run on residues. -/
theorem LimbRun.holds (accepts : impl.Accepts f) (constant : impl.Constant f)
    {ops : List (LimbOp ι)} {s' : ι → DataS} (run : LimbRun impl f s ops s')
    (holds : ∀ i, impl.Holds f (s i) (v i)) :
    ∃ v', ResidueRun impl f v ops v' ∧ ∀ i, impl.Holds f (s' i) (v' i) := by
  induction run generalizing v with
  | nil s => exact ⟨v, .nil v, holds⟩
  | cons meets step rest ih =>
    obtain ⟨t, x, step', value, held⟩ := limbStep_holds accepts constant holds meets
    obtain rfl := Option.some.inj (step.symm.trans step')
    obtain ⟨v', follows, final⟩ := ih held
    exact ⟨v', .cons value follows, final⟩

/-- In a run whose steps meet their conditions every flag is clear exactly when the
residue of its element is zero, and set above a reduced positive number; so the tests,
sums, differences and products agree with the residues. -/
theorem limbRun_invariant (accepts : impl.Accepts f) (constant : impl.Constant f)
    (fresh : ∀ i, (s i).flag = false) {ops : List (LimbOp ι)} {s' : ι → DataS}
    (run : LimbRun impl f s ops s') :
    ∃ v, ResidueRun impl f (fun _ => 0) ops v ∧
      (∀ i, ((s' i).flag = false ↔ v i = 0) ∧
        ((s' i).flag = true → 0 < (s' i).d ∧ (s' i).d < f.order)) ∧
      (∀ i, (fpIs0 (s' i) = true ↔ v i = 0) ∧ ((impl.methods f).is1 (s' i) = true ↔ v i = 1)) ∧
      ∀ c i j, impl.Holds f (fpAdd f c (s' i) (s' j)) (v i + v j) ∧
        impl.Holds f (fpSub f c (s' i) (s' j)) (v i - v j) ∧
        (impl.ProductFits f (s' i) (s' j) → ∃ e, (impl.methods f).mul c (s' i) (s' j) = some e ∧
          impl.Holds f e (v i * v j)) := by
  obtain ⟨v, follows, holds⟩ := run.holds (v := fun _ => 0) accepts constant fun i =>
    LimbImpl.holds_zero (fresh i)
  refine ⟨v, follows, fun i => ⟨LimbImpl.flag_iff accepts (holds i),
    LimbImpl.limbs_reduced (holds i)⟩, fun i => ⟨?_, LimbImpl.is1_iff accepts (holds i)⟩,
    fun c i j => ⟨LimbImpl.add_holds c (holds i) (holds j),
      LimbImpl.sub_holds c (holds i) (holds j),
      LimbImpl.mul_holds accepts constant c (holds i) (holds j)⟩⟩
  rw [fpIs0, Bool.not_eq_true', LimbImpl.flag_iff accepts (holds i)]

end Steps

section Small

/-- The least prime above 32 bits, in limbs of 32 bits. -/
def smallLimbField : LimbField where
  limbBytes := 4
  order := 4294967311
  positive := by decide
  wide := by decide

theorem smallLimbField_limbs : smallLimbField.limbs = 2 := by
  have log : Nat.log (256 ^ 4) 4294967311 = 1 :=
    Nat.log_eq_of_pow_le_of_lt_pow (by norm_num) (by norm_num)
  exact congrArg (· + 1) log

/-- The product of two and three, and a copy of it. -/
private theorem smallLimbRun : LimbRun .faster smallLimbField (fun _ : Fin 2 => ⟨false, 0⟩)
    [.setSi 0 2, .setSi 1 3, .mul 0 0 1, .set 1 0] (fun _ => ⟨true, 6⟩) := by
  have room : smallLimbField.arrays true = some () :=
    smallLimbField.arrays_of_fits fun _ => by rw [smallLimbField_limbs]; decide
  have first : limbStep .faster smallLimbField (fun _ : Fin 2 => ⟨false, 0⟩) (.setSi 0 2) =
      some ![⟨true, 2⟩, ⟨false, 0⟩] := by
    refine congrArg some (funext fun i => ?_)
    fin_cases i <;> rfl
  have second : limbStep .faster smallLimbField ![⟨true, 2⟩, ⟨false, 0⟩] (.setSi 1 3) =
      some ![⟨true, 2⟩, ⟨true, 3⟩] := by
    refine congrArg some (funext fun i => ?_)
    fin_cases i <;> rfl
  have third : limbStep .faster smallLimbField ![⟨true, 2⟩, ⟨true, 3⟩] (.mul 0 0 1) =
      some ![⟨true, 6⟩, ⟨true, 3⟩] := by
    have product : (LimbOp.mul 0 0 1).result .faster smallLimbField ![⟨true, 2⟩, ⟨true, 3⟩] =
        (smallLimbField.arrays true).map fun _ => ⟨true, 6⟩ := by
      simp [LimbOp.result, LimbImpl.methods, fasterMethods, room]
      rfl
    rw [limbStep, product, room]
    refine congrArg some (funext fun i => ?_)
    fin_cases i <;> rfl
  have fourth : limbStep .faster smallLimbField ![⟨true, 6⟩, ⟨true, 3⟩] (.set 1 0) =
      some fun _ => ⟨true, 6⟩ := by
    refine congrArg some (funext fun i => ?_)
    fin_cases i <;> rfl
  refine .cons ⟨by decide, by decide⟩ first (.cons ⟨by decide, by decide⟩ second
    (.cons (fun _ _ => ⟨by rw [smallLimbField_limbs]; decide, by decide, nofun⟩) third
      (.cons trivial fourth (.nil _))))

theorem limbRun_invariant_small :
    ∃ v : Fin 2 → ZMod smallLimbField.order, ResidueRun .faster smallLimbField (fun _ => 0)
        [.setSi 0 2, .setSi 1 3, .mul 0 0 1, .set 1 0] v ∧ ∀ i, ((true = false) ↔ v i = 0) :=
  have accepts : LimbImpl.faster.Accepts smallLimbField := trivial
  have constant : LimbImpl.faster.Constant smallLimbField := trivial
  let ⟨v, follows, flags, _⟩ := limbRun_invariant accepts constant (fun _ => rfl) smallLimbRun
  ⟨v, follows, fun i => (flags i).1⟩

/-- Setting an element to the modulus leaves its flag set over the limbs of zero. -/
theorem limbRun_flag_wrong :
    ∃ s' : Fin 1 → DataS, limbStep .faster smallLimbField (fun _ => ⟨false, 0⟩)
        (.setMpz 0 4294967311) = some s' ∧ (s' 0).flag = true ∧ (s' 0).d = 0 ∧
      fpIs0 (s' 0) = false ∧ ((4294967311 : ℤ) : ZMod smallLimbField.order) = 0 := by
  refine ⟨_, rfl, rfl, rfl, rfl, ?_⟩
  exact (ZMod.intCast_zmod_eq_zero_iff_dvd _ _).mpr (by decide)

end Small

end Pbc.Arith
