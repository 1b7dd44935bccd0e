import Pbc.Arith.FpBytes
import Pbc.Arith.HashExpansion

/-!
# Fixed scratch arrays

The cells of their local arrays that the routines of the four implementations of `F_p`
write. The arrays are sized by `MAX_LIMBS`; no constructor compares the modulus with it.
-/

open Pbc.Gmp Pbc.Misc

namespace Pbc.Arith

/-- The routine writes `count` cells, from one index on, of a local array of a size. -/
structure ScratchWrite where
  size : ℕ
  start : ℕ
  count : ℕ

/-- Every index written is within the array. -/
def ScratchWrite.Within (w : ScratchWrite) : Prop := ∀ i < w.count, w.start + i < w.size

/-- The implementations that a constructor installs. -/
inductive FpConstructor where
  | naive
  | fast
  | faster
  | mont
deriving DecidableEq

/-- The assertion of a constructor: the modulus does not fit an unsigned long. -/
def FpConstructor.Accepts (f : FpFieldData) : FpConstructor → Prop
  | naive => True
  | fast | faster | mont => ¬f.order < f.base

/-- `field_init_fp`, with the implementation that `pbc_tweak_use_fp` chose. -/
def fieldInitFp (optionFpinit : FpConstructor) (f : FpFieldData) : FpConstructor :=
  if f.order < f.base then .naive
  else if f.order % 2 = 1 then optionFpinit
  else .faster

section Writes

variable (f : FpFieldData)

/-- The writes of `fp_mul` into `tmp` and `qp`. -/
def tdivWrites : List ScratchWrite :=
  let t := f.limbs
  [⟨2 * maxLimbs, 0, 2 * t⟩, ⟨maxLimbs + 1, 0, 2 * t - t + 1⟩]

/-- The writes of `fp_mul_si` into `tmp` and `qp`. -/
def mulSiWrites (size : ℕ) : List ScratchWrite :=
  let t := f.limbs
  [⟨size, 0, t⟩, ⟨size, t, 1⟩, ⟨2, 0, t + 1 - t + 1⟩]

/-- The writes of `fp_sgn_even` into `sum`. -/
def sgnEvenWrites : List ScratchWrite := [⟨maxLimbs, 0, f.limbs⟩]

/-- The writes of one round of `mont_reduce` into the array that it reduces. -/
def montReduceRound (size t i : ℕ) : List ScratchWrite := [⟨size, i, t⟩, ⟨size, i + t, t - i⟩]

/-- The writes of `mont_reduce` into the array that it reduces. -/
def montReduceWrites (size t : ℕ) : List ScratchWrite :=
  (List.range t).flatMap (montReduceRound size t)

/-- The writes of the Montgomery `fp_to_mpz` into `tmp`. -/
def montToMpzWrites : List ScratchWrite :=
  let t := f.limbs
  [⟨2 * maxLimbs, 0, t⟩, ⟨2 * maxLimbs, t, t⟩] ++ montReduceWrites (2 * maxLimbs) t

/-- The writes of one round of `mont_mul` into `z`. -/
def montRoundWrites (t i : ℕ) : List ScratchWrite :=
  let size := 2 * maxLimbs + 1
  [⟨size, i, t⟩, ⟨size, t + i, 1⟩, ⟨size, i, t⟩, ⟨size, t + i, 1⟩, ⟨size, t + i + 1, 1⟩]

/-- The writes of `mont_mul` into `z`. -/
def montMulWrites : List ScratchWrite := (List.range f.limbs).flatMap (montRoundWrites f.limbs)

/-- The writes of the Montgomery `fp_invert` into `tmp` and `z`, once `mpz_invert` has
left an inverse. -/
def montInvertWrites (z : ℕ) : List ScratchWrite :=
  let count := if z = 0 then 0 else mpzSize f.base z
  [⟨maxLimbs, 0, count⟩, ⟨maxLimbs, count, f.limbs - count⟩] ++ montMulWrites f

end Writes

/-- The calls of the methods that may use a local array. An implementation without a
flag reads the limbs alone. -/
inductive ScratchCall where
  | mul (a b : DataS)
  | mulSi (a : DataS) (op : ℤ)
  | sign (a : DataS)
  | toMpz (a : DataS)
  | invert (a : DataS)
  | fromHash (data : List UInt8)

/-- The writes of a call into arrays of limbs; none follow when `mpz_invert` leaves no
specified value. -/
def ScratchCall.writes (f : FpFieldData) : FpConstructor → ScratchCall → List ScratchWrite
  | .naive, _ => []
  | .fast, mul _ _ => tdivWrites f
  | .fast, mulSi _ _ => mulSiWrites f maxLimbs
  | .fast, sign a => if f.order % 2 = 1 ∨ a.d = 0 then [] else sgnEvenWrites f
  | .faster, mul a b => if !a.flag || !b.flag then [] else tdivWrites f
  | .faster, mulSi a op => if !a.flag || op = 0 then [] else mulSiWrites f (maxLimbs + 1)
  | .faster, sign a => if f.order % 2 = 1 ∨ !a.flag then [] else sgnEvenWrites f
  | .mont, mul a b => if !a.flag || !b.flag then [] else montMulWrites f
  | .mont, mulSi a op =>
      -- `generic_mul_si` multiplies by an element of its own
      if !a.flag || !(montSetSi f (fpInit 0) op).flag then [] else montMulWrites f
  | .mont, sign a | .mont, toMpz a => if !a.flag then [] else montToMpzWrites f
  | .mont, invert a =>
      match mpzInvert f.order a.d with
      | some z => montInvertWrites f z.toNat
      | none => []
  | _, _ => []

/-- No index that a call writes is outside its array; a hash is expanded in an array of
bytes. -/
def ScratchCall.Within (k : FpConstructor) (f : FpFieldData) : ScratchCall → Prop
  | fromHash data => ∃ result, Ends (pbcMpzFromHashAt f.order data) result
  | call => ∀ w ∈ call.writes f k, w.Within

/-- The limbs of the modulus fit in the arrays that a call writes. -/
def ScratchCall.Fits (k : FpConstructor) (f : FpFieldData) : ScratchCall → Prop
  | fromHash _ => byteCount f.order ≤ 2 * maxLimbs
  | mul a b =>
      match k with
      | .naive => True
      | .fast => f.limbs ≤ maxLimbs
      | .faster | .mont => a.flag = true ∧ b.flag = true → f.limbs ≤ maxLimbs
  | mulSi a op =>
      match k with
      | .naive => True
      | .fast => f.limbs < maxLimbs
      | .faster | .mont => a.flag = true ∧ op ≠ 0 → f.limbs ≤ maxLimbs
  | sign a =>
      match k with
      | .naive => True
      | .fast => f.order % 2 = 0 ∧ a.d ≠ 0 → f.limbs ≤ maxLimbs
      | .faster => f.order % 2 = 0 ∧ a.flag = true → f.limbs ≤ maxLimbs
      | .mont => a.flag = true → f.limbs ≤ maxLimbs
  | toMpz a =>
      match k with
      | .naive | .fast | .faster => True
      | .mont => a.flag = true → f.limbs ≤ maxLimbs
  | invert a =>
      match k with
      | .naive | .fast | .faster => True
      | .mont => Int.gcd a.d f.order = 1 → f.limbs ≤ maxLimbs

/-- The modulus fits in every array of an implementation. -/
def FpConstructor.Room (f : FpFieldData) : FpConstructor → Prop
  | naive => byteCount f.order ≤ 2 * maxLimbs
  | fast => byteCount f.order ≤ 2 * maxLimbs ∧ f.limbs < maxLimbs
  | faster | mont => byteCount f.order ≤ 2 * maxLimbs ∧ f.limbs ≤ maxLimbs

section Arrays

/-- A block of cells is within its array when its last cell is. -/
theorem ScratchWrite.within_iff (size start count : ℕ) :
    (ScratchWrite.mk size start count).Within ↔ count = 0 ∨ start + count ≤ size := by
  constructor
  · intro within
    cases count with
    | zero => exact .inl rfl
    | succ count => exact .inr (within count count.lt_succ_self)
  · intro room i fewer
    rcases room with rfl | room
    · exact absurd fewer i.not_lt_zero
    · exact (Nat.add_lt_add_left fewer start).trans_le room

variable {f : FpFieldData}

theorem tdivWrites_within : (∀ w ∈ tdivWrites f, w.Within) ↔ f.limbs ≤ maxLimbs := by
  have some := f.limbs_pos
  simp only [tdivWrites, List.forall_mem_cons, ScratchWrite.within_iff]
  simp only [List.not_mem_nil, false_implies, implies_true, and_true]
  omega

theorem mulSiWrites_within (size : ℕ) :
    (∀ w ∈ mulSiWrites f size, w.Within) ↔ f.limbs < size := by
  simp only [mulSiWrites, List.forall_mem_cons, ScratchWrite.within_iff]
  simp only [List.not_mem_nil, false_implies, implies_true, and_true]
  omega

theorem sgnEvenWrites_within : (∀ w ∈ sgnEvenWrites f, w.Within) ↔ f.limbs ≤ maxLimbs := by
  have some := f.limbs_pos
  simp only [sgnEvenWrites, List.forall_mem_cons, ScratchWrite.within_iff]
  simp only [List.not_mem_nil, false_implies, implies_true, and_true]
  omega

/-- The reduction stays in twice the limbs. -/
theorem montReduceWrites_within {size t : ℕ} (room : 2 * t ≤ size) :
    ∀ w ∈ montReduceWrites size t, w.Within := by
  intro w member
  obtain ⟨i, round, member⟩ := List.mem_flatMap.mp member
  have less := List.mem_range.mp round
  have within : ∀ w ∈ montReduceRound size t i, w.Within := by
    simp only [montReduceRound, List.forall_mem_cons, ScratchWrite.within_iff, List.not_mem_nil,
      false_implies, implies_true, and_true]
    omega
  exact within w member

theorem montToMpzWrites_within : (∀ w ∈ montToMpzWrites f, w.Within) ↔ f.limbs ≤ maxLimbs := by
  have some := f.limbs_pos
  simp only [montToMpzWrites, List.forall_mem_append, List.forall_mem_cons,
    ScratchWrite.within_iff, List.not_mem_nil, false_implies, implies_true, and_true]
  constructor
  · intro within
    omega
  · intro room
    exact ⟨by omega, montReduceWrites_within (by omega)⟩

/-- The last round of the multiplication writes one cell more than twice the limbs. -/
theorem montMulWrites_within : (∀ w ∈ montMulWrites f, w.Within) ↔ f.limbs ≤ maxLimbs := by
  have some := f.limbs_pos
  constructor
  · intro within
    have last : f.limbs - 1 ∈ List.range f.limbs := List.mem_range.mpr (by omega)
    have round : ∀ w ∈ montRoundWrites f.limbs (f.limbs - 1), w.Within := by
      intro w member
      exact within w (List.mem_flatMap.mpr ⟨_, last, member⟩)
    simp only [montRoundWrites, List.forall_mem_cons, ScratchWrite.within_iff] at round
    omega
  · intro room w member
    obtain ⟨i, round, member⟩ := List.mem_flatMap.mp member
    have less := List.mem_range.mp round
    have within : ∀ w ∈ montRoundWrites f.limbs i, w.Within := by
      simp only [montRoundWrites, List.forall_mem_cons, ScratchWrite.within_iff, List.not_mem_nil,
        false_implies, implies_true, and_true]
      omega
    exact within w member

/-- The limbs of an inverse and the zeros above them. -/
theorem montInvertWrites_within {z : ℕ} (small : z < f.order) :
    (∀ w ∈ montInvertWrites f z, w.Within) ↔ f.limbs ≤ maxLimbs := by
  have size : mpzSize f.base z ≤ f.limbs :=
    Nat.succ_le_succ (Nat.log_mono_right small.le)
  simp only [montInvertWrites, List.forall_mem_append, montMulWrites_within,
    List.forall_mem_cons, ScratchWrite.within_iff, List.not_mem_nil, false_implies, implies_true,
    and_true]
  constructor
  · rintro ⟨-, room⟩
    exact room
  · intro room
    split <;> omega

/-- The expansion of a hash stays in its array of bytes. -/
theorem fromHash_within (limit : ℕ) (data : List UInt8) :
    (∃ result, Ends (pbcMpzFromHashAt limit data) result) ↔ byteCount limit ≤ 2 * maxLimbs := by
  constructor
  · rintro ⟨result, k, ends⟩
    by_contra long
    have overrun := hashTurns_long data (not_le.mp long) ⟨0, 0, fun _ => none⟩
      (k + 2 * maxLimbs + 1) (Nat.zero_le _) (by omega)
    have run := ends (k + 2 * maxLimbs + 1) (by omega)
    rw [pbcMpzFromHashAt, overrun] at run
    cases run
  · intro room
    exact ⟨_, pbcMpzFromHashAt_run limit data room⟩

/-- A call that may write nothing. -/
theorem writes_ite {skip : Prop} [Decidable skip] {writes : List ScratchWrite} {fits : Prop}
    (within : (∀ w ∈ writes, w.Within) ↔ fits) :
    (∀ w ∈ if skip then [] else writes, w.Within) ↔ (¬skip → fits) := by
  by_cases skipped : skip
  · simp [skipped]
  · simp [skipped, within]

private theorem montSetSi_flag {f : FpFieldData} (op : ℤ) :
    (montSetSi f (fpInit 0) op).flag = true ↔ op ≠ 0 := by
  rw [montSetSi]
  by_cases zero : op = 0
  · simp [zero]
  · simp [zero]

/-- An inversion writes when there is an inverse. -/
private theorem montInvert_within {f : FpFieldData} (a : DataS) :
    (ScratchCall.invert a).Within .mont f ↔ (ScratchCall.invert a).Fits .mont f := by
  simp only [ScratchCall.Within, ScratchCall.writes, ScratchCall.Fits]
  cases inverse : mpzInvert f.order a.d with
  | none =>
    have coprime : ¬Int.gcd a.d f.order = 1 := by
      intro coprime
      rw [mpzInvert, if_pos coprime] at inverse
      cases inverse
    exact iff_of_true (fun _ none => absurd none (List.not_mem_nil)) fun unit => absurd unit coprime
  | some z =>
    have coprime : Int.gcd a.d f.order = 1 := by
      by_contra coprime
      rw [mpzInvert, if_neg coprime] at inverse
      cases inverse
    have range := mpzInvert_range f.order_pos inverse
    apply (montInvertWrites_within (by omega : z.toNat < f.order)).trans
    exact ⟨fun room _ => room, fun fits => fits coprime⟩

/-- The calls that stay within their arrays. -/
theorem ScratchCall.within_iff (k : FpConstructor) (f : FpFieldData) (call : ScratchCall) :
    call.Within k f ↔ call.Fits k f := by
  cases call with
  | fromHash data => exact fromHash_within f.order data
  | mul a b =>
    cases k with
    | naive => simp [Within, writes, Fits]
    | fast => exact tdivWrites_within
    | faster =>
      apply (writes_ite tdivWrites_within).trans
      simp [Fits]
    | mont =>
      apply (writes_ite montMulWrites_within).trans
      simp [Fits]
  | mulSi a op =>
    cases k with
    | naive => simp [Within, writes, Fits]
    | fast => exact mulSiWrites_within maxLimbs
    | faster =>
      apply (writes_ite (mulSiWrites_within (maxLimbs + 1))).trans
      simp [Fits]
    | mont =>
      apply (writes_ite montMulWrites_within).trans
      simp [Fits, montSetSi_flag]
  | sign a =>
    cases k with
    | naive => simp [Within, writes, Fits]
    | fast =>
      apply (writes_ite sgnEvenWrites_within).trans
      simp [Fits]
    | faster =>
      apply (writes_ite sgnEvenWrites_within).trans
      simp [Fits]
    | mont =>
      apply (writes_ite montToMpzWrites_within).trans
      simp [Fits]
  | toMpz a =>
    cases k with
    | mont =>
      apply (writes_ite montToMpzWrites_within).trans
      simp [Fits]
    | _ => simp [Within, writes, Fits]
  | invert a =>
    cases k with
    | mont => exact montInvert_within a
    | _ => simp [Within, writes, Fits]

/-- Every call of an implementation stays within its arrays exactly when the modulus fits
in all of them. -/
theorem FpConstructor.room_iff (k : FpConstructor) (f : FpFieldData) :
    (∀ call : ScratchCall, call.Fits k f) ↔ k.Room f := by
  constructor
  · intro fits
    have bytes := fits (.fromHash [])
    cases k with
    | naive => exact bytes
    | fast => exact ⟨bytes, fits (.mulSi (fpInit 0) 1)⟩
    | faster => exact ⟨bytes, fits (.mul ⟨true, 1⟩ ⟨true, 1⟩) ⟨rfl, rfl⟩⟩
    | mont => exact ⟨bytes, fits (.mul ⟨true, 1⟩ ⟨true, 1⟩) ⟨rfl, rfl⟩⟩
  · intro room call
    cases k with
    | naive => cases call with
      | fromHash data => exact room
      | _ => trivial
    | fast => cases call with
      | fromHash data => exact room.1
      | mul a b => exact room.2.le
      | mulSi a op => exact room.2
      | sign a => exact fun _ => room.2.le
      | _ => trivial
    | faster => cases call with
      | fromHash data => exact room.1
      | toMpz a => trivial
      | invert a => trivial
      | _ => exact fun _ => room.2
    | mont => cases call with
      | fromHash data => exact room.1
      | _ => exact fun _ => room.2

private theorem bytes_of_large {f : FpFieldData} {n : ℕ} (positive : 0 < n)
    (large : (256 ^ 4) ^ n ≤ f.order) : 2 * n < byteCount f.order := by
  by_contra short
  have small := (byteCount_le_iff f.order_pos.ne').mp (not_lt.mp short)
  have twice : 256 ^ (2 * n) ≤ (256 ^ 4) ^ n := by
    rw [← pow_mul]
    exact Nat.pow_le_pow_right (by decide) (by omega)
  exact absurd small (not_lt.mpr (twice.trans large))

private theorem limbs_of_large {f : FpFieldData} {n : ℕ} (large : f.base ^ n ≤ f.order) :
    n < f.limbs :=
  Nat.lt_succ_of_le (Nat.le_log_of_pow_le f.one_lt_base large)

private theorem overrun_of_bytes {f : FpFieldData} (long : 2 * maxLimbs < byteCount f.order)
    (data : List UInt8) (k : FpConstructor) : ¬(ScratchCall.fromHash data).Within k f := by
  intro within
  exact absurd ((fromHash_within f.order data).mp within) (not_le.mpr long)

private theorem overrun_of_limbs {f : FpFieldData} (long : maxLimbs < f.limbs) (a : DataS)
    (op : ℤ) : ¬(ScratchCall.mulSi a op).Within .fast f := by
  intro within
  exact absurd ((mulSiWrites_within maxLimbs).mp within) (not_lt.mpr long.le)

/-- The product that the method tables give is there when its call stays within the
arrays. -/
theorem fasterMul_isSome (f : FpFieldData) (c a b : DataS) :
    ((fasterMethods f).mul c a b).isSome ↔ (ScratchCall.mul a b).Within .faster f := by
  rw [ScratchCall.within_iff]
  by_cases large : maxLimbs < f.limbs
  · cases left : a.flag <;> cases right : b.flag <;>
      simp [fasterMethods, FpFieldData.arrays, ScratchCall.Fits, left, right, large]
  · have room := not_lt.mp large
    have arrays (used : Bool) : f.arrays used = some () := f.arrays_of_fits fun _ => room
    simp [fasterMethods, arrays, ScratchCall.Fits, room]

end Arrays

end Pbc.Arith
