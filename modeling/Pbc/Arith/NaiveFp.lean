import Mathlib.Data.Fin.VecNotation
import Mathlib.RingTheory.Coprime.Lemmas
import Mathlib.RingTheory.Int.Basic
import Pbc.Arith.Field
import Pbc.Gmp.Bytes

/-!
# The default implementation of `F_p`

An element is an integer of the library that is meant to lie in `0, ..., p - 1`.
Additions correct by at most one modulus, so they rely on that range; the other
operations reduce. Two routines read outside data and do not reduce.
-/

open Pbc.Gmp

namespace Pbc.Arith

section Strings

/-- `isspace` in the C locale. -/
def isSpace (c : Char) : Bool :=
  c = ' ' || c = '\t' || c = '\n' || c = '\r' || c.toNat = 11 || c.toNat = 12

/-- The digit that `pbc_mpz_set_str` reads; letters count from zero. -/
def strDigit (c : Char) : Option ℕ :=
  if '0' ≤ c ∧ c ≤ '9' then some (c.toNat - '0'.toNat)
  else if 'A' ≤ c ∧ c ≤ 'Z' then some (c.toNat - 'A'.toNat)
  else if 'a' ≤ c ∧ c ≤ 'z' then some (c.toNat - 'a'.toNat)
  else none

/-- The loop of `pbc_mpz_set_str`: the integer and the number of characters read. -/
def pbcMpzSetStrLoop (b : ℕ) : List Char → ℕ → ℕ → ℕ × ℕ
  | [], z, i => (z, i)
  | c :: s, z, i =>
      if isSpace c then pbcMpzSetStrLoop b s z (i + 1)
      else
        match strDigit c with
        | none => (z, i)
        | some j => if j ≥ b then (z, i) else pbcMpzSetStrLoop b s (z * b + j) (i + 1)

/-- `pbc_mpz_set_str`. -/
def pbcMpzSetStr (s : List Char) (base : ℤ) : ℕ × ℕ :=
  if base = 0 then pbcMpzSetStrLoop 10 s 0 0
  else if base < 2 then (0, 0)
  else if base > 36 then (0, 0)
  else pbcMpzSetStrLoop base.toNat s 0 0

end Strings

section Hash

/-- `MAX_LIMBS`. -/
def maxLimbs : ℕ := 1024

/-- The loop of `pbc_mpz_from_hash` that fills `buf` up to `count` bytes. -/
def hashBufLoop (count : ℕ) (data : List UInt8) : ℕ → List UInt8 → UInt8 → List UInt8
  | 0, buf, _ => buf
  | fuel + 1, buf, counter =>
      if data.length ≥ count - buf.length then buf ++ data.take (count - buf.length)
      else
        let buf := buf ++ data
        let buf := buf ++ [counter]
        if buf.length = count then buf else hashBufLoop count data fuel buf (counter + 1)

/-- The bytes `H || 0 || H || 1 || ...` that `pbc_mpz_from_hash` imports. -/
def hashBuf (count : ℕ) (data : List UInt8) : List UInt8 := hashBufLoop count data count [] 0

/-- The halving loop of `pbc_mpz_from_hash`. -/
def shrinkLoop (limit : ℕ) : ℕ → ℕ → ℕ
  | 0, z => z
  | fuel + 1, z => if z > limit then shrinkLoop limit fuel (z / 2) else z

/-- `pbc_mpz_from_hash`; a longer limit does not fit in `buf[2*MAX_LIMBS]`. -/
def pbcMpzFromHash (limit : ℕ) (data : List UInt8) : Option ℕ :=
  let count := byteCount limit
  if count ≤ 2 * maxLimbs then
    let z := mpzImport (hashBuf count data)
    some (shrinkLoop limit (mpzSizeinbase2 z) z)
  else none

end Hash

section Operations

variable (p : ℕ)

/-- `fixed_length_in_bytes`. -/
def fixedLengthInBytes : ℕ := byteCount p

/-- `zp_set_si`. -/
def zpSetSi (op : ℤ) : ℤ := op % p

/-- `zp_set_mpz`. -/
def zpSetMpz (z : ℤ) : ℤ := z % p

/-- `zp_set_str`. -/
def zpSetStr (s : List Char) (base : ℤ) : ℤ := ((pbcMpzSetStr s base).1 : ℤ) % p

/-- `zp_add`. -/
def zpAdd (a b : ℤ) : ℤ :=
  let n := a + b
  if n ≥ p then n - p else n

/-- `zp_sub`. -/
def zpSub (a b : ℤ) : ℤ :=
  let n := a - b
  if n < 0 then n + p else n

/-- `zp_square`. -/
def zpSquare (a : ℤ) : ℤ := a ^ 2 % p

/-- `zp_double`. -/
def zpDouble (a : ℤ) : ℤ :=
  let n := a * 2
  if n ≥ p then n - p else n

/-- `zp_halve`. -/
def zpHalveRaw (a : ℤ) : ℤ :=
  if a % 2 = 1 then
    let n := a + p
    n.tdiv 2
  else a.tdiv 2

/-- `zp_mul`. -/
def zpMul (a b : ℤ) : ℤ := a * b % p

/-- `zp_mul_mpz`. -/
def zpMulMpz (a z : ℤ) : ℤ := a * z % p

/-- `zp_mul_si`. -/
def zpMulSi (a z : ℤ) : ℤ := a * z % p

/-- `zp_pow_mpz`, for a nonnegative exponent. -/
def zpPowMpz (a : ℤ) (z : ℕ) : ℤ := a ^ z % p

/-- `zp_neg`. -/
def zpNeg (a : ℤ) : ℤ := if a = 0 then 0 else p - a

/-- `mpz_invert`, which leaves no specified value without an inverse. -/
def mpzInvert (a : ℤ) : Option ℤ := if Int.gcd a p = 1 then some (Int.gcdA a p % p) else none

/-- `zp_from_hash`. -/
def zpFromHash (data : List UInt8) : Option ℤ := (pbcMpzFromHash p data).map Nat.cast

/-- `zp_from_bytes`: the integer and the number of bytes read. -/
def zpFromBytes (data : List UInt8) : ℤ × ℕ :=
  (mpzImport (data.take (fixedLengthInBytes p)), fixedLengthInBytes p)

/-- `zp_to_bytes`: the bytes written, and their number. -/
def zpToBytes (e : ℤ) : Option (List UInt8 × ℕ) :=
  (pbcMpzOutRawN (fixedLengthInBytes p) e).map fun data => (data, fixedLengthInBytes p)

/-- `zp_cmp`. -/
def zpCmp (a b : ℤ) : ℤ := if a < b then -1 else if a = b then 0 else 1

/-- `zp_is0`. -/
def zpIs0 (n : ℤ) : Bool := n = 0

/-- `zp_is1`. -/
def zpIs1 (n : ℤ) : Bool := n = 1

/-- `zp_sgn_odd`. -/
def zpSgnOdd (a : ℤ) : ℤ := if a = 0 then 0 else if a % 2 = 1 then 1 else -1

end Operations

section Values

variable {p : ℕ}

@[simp] theorem zpSetMpz_cast (z : ℤ) : (zpSetMpz p z : ZMod p) = z := ZMod.intCast_mod z p

@[simp] theorem zpMul_cast (a b : ℤ) : (zpMul p a b : ZMod p) = a * b := by
  rw [zpMul, ZMod.intCast_mod, Int.cast_mul]

@[simp] theorem zpSquare_cast (a : ℤ) : (zpSquare p a : ZMod p) = a ^ 2 := by
  rw [zpSquare, ZMod.intCast_mod, Int.cast_pow]

@[simp] theorem zpPowMpz_cast (a : ℤ) (z : ℕ) : (zpPowMpz p a z : ZMod p) = a ^ z := by
  rw [zpPowMpz, ZMod.intCast_mod, Int.cast_pow]

@[simp] theorem zpAdd_cast (a b : ℤ) : (zpAdd p a b : ZMod p) = a + b := by
  simp only [zpAdd]
  split <;> simp

@[simp] theorem zpSub_cast (a b : ℤ) : (zpSub p a b : ZMod p) = a - b := by
  simp only [zpSub]
  split <;> simp

@[simp] theorem zpNeg_cast (a : ℤ) : (zpNeg p a : ZMod p) = -a := by
  rw [zpNeg]
  split
  · next zero => simp [zero]
  · simp

@[simp] theorem zpCmp_eq_zero (a b : ℤ) : zpCmp a b = 0 ↔ a = b := by
  rw [zpCmp]
  split <;> [omega; split <;> omega]

/-- One correction is enough for a sum of reduced integers. -/
theorem zpAdd_reduced {a b : ℤ} (left : 0 ≤ a ∧ a < p) (right : 0 ≤ b ∧ b < p) :
    0 ≤ zpAdd p a b ∧ zpAdd p a b < p := by
  simp only [zpAdd]
  split <;> omega

/-- So it is for a difference, even when the modulus is taken from a reduced integer. -/
theorem zpSub_reduced {a b : ℤ} (left : 0 ≤ a ∧ a < p) (right : 0 ≤ b ∧ b ≤ p) :
    0 ≤ zpSub p a b ∧ zpSub p a b < p := by
  simp only [zpSub]
  split <;> omega

theorem zpDouble_reduced {a : ℤ} (range : 0 ≤ a ∧ a < p) :
    0 ≤ zpDouble p a ∧ zpDouble p a < p := by
  simp only [zpDouble]
  split <;> omega

theorem zpHalveRaw_reduced {a : ℤ} (range : 0 ≤ a ∧ a < p) :
    0 ≤ zpHalveRaw p a ∧ zpHalveRaw p a < p := by
  have sum : 0 ≤ a + p := by omega
  simp only [zpHalveRaw, Int.tdiv_eq_ediv_of_nonneg range.1, Int.tdiv_eq_ediv_of_nonneg sum]
  split <;> omega

theorem zpNeg_reduced {a : ℤ} (range : 0 ≤ a ∧ a < p) : 0 ≤ zpNeg p a ∧ zpNeg p a < p := by
  simp only [zpNeg]
  split <;> omega

/-- An element is written with its absolute value, in exactly the length of the field
and only when that is enough. -/
theorem zpToBytes_eq (p : ℕ) (e : ℤ) :
    (e.natAbs < 256 ^ fixedLengthInBytes p → ∃ data,
      zpToBytes p e = some (data, fixedLengthInBytes p) ∧ data.length = fixedLengthInBytes p ∧
        mpzImport data = e.natAbs) ∧
      (¬e.natAbs < 256 ^ fixedLengthInBytes p → zpToBytes p e = none) := by
  obtain ⟨written, overflow⟩ := pbcMpzOutRawN_eq (fixedLengthInBytes p) e
  constructor
  · intro small
    obtain ⟨data, run, length, value⟩ := written small
    exact ⟨data, by rw [zpToBytes, run]; rfl, length, value⟩
  · intro large
    rw [zpToBytes, overflow large]
    rfl

/-- An inverse modulo any modulus. -/
theorem mpzInvert_mul (positive : 0 < p) {a : ℤ} (coprime : Int.gcd a p = 1) :
    ∃ b, mpzInvert p a = some b ∧ (0 ≤ b ∧ b < p) ∧ (b * a : ZMod p) = 1 := by
  have bezout := congrArg (Int.cast : ℤ → ZMod p) (Int.gcd_eq_gcd_ab a p)
  rw [coprime] at bezout
  push_cast at bezout
  rw [ZMod.natCast_self, zero_mul, add_zero] at bezout
  refine ⟨_, if_pos coprime, ⟨Int.emod_nonneg _ (by omega), Int.emod_lt_of_pos _ (by omega)⟩, ?_⟩
  rw [ZMod.intCast_mod, mul_comm, ← bezout]

/-- An inverse is reduced. -/
theorem mpzInvert_range (positive : 0 < p) {a b : ℤ} (inverted : mpzInvert p a = some b) :
    0 ≤ b ∧ b < p := by
  rw [mpzInvert] at inverted
  split at inverted
  · obtain rfl := Option.some.inj inverted
    exact ⟨Int.emod_nonneg _ (by omega), Int.emod_lt_of_pos _ (by omega)⟩
  · cases inverted

/-- An inverse exists modulo a prime for every nonzero residue. -/
theorem mpzInvert_cast [prime : Fact p.Prime] {a : ℤ} (nonzero : (a : ZMod p) ≠ 0) :
    ∃ b, mpzInvert p a = some b ∧ (b : ZMod p) = (a : ZMod p)⁻¹ := by
  have coprime : Int.gcd a p = 1 := by
    rw [Int.gcd_comm, ← Int.isCoprime_iff_gcd_eq_one]
    refine (Nat.prime_iff_prime_int.mp prime.out).coprime_iff_not_dvd.mpr ?_
    rwa [← ZMod.intCast_zmod_eq_zero_iff_dvd]
  obtain ⟨b, inverted, -, product⟩ := mpzInvert_mul prime.out.pos coprime
  exact ⟨b, inverted, eq_inv_of_mul_eq_one_left product⟩

/-- Reduced integers of one residue class are equal. -/
theorem eq_of_cast_eq {a b : ℤ} (left : 0 ≤ a ∧ a < p) (right : 0 ≤ b ∧ b < p)
    (same : (a : ZMod p) = b) : a = b := by
  have congruent := (ZMod.intCast_eq_intCast_iff _ _ _).mp same
  rwa [Int.ModEq, Int.emod_eq_of_lt left.1 left.2, Int.emod_eq_of_lt right.1 right.2] at congruent

/-- The test for one of a power, which is reduced. -/
theorem zpIs1_powMpz [prime : Fact p.Prime] (a : ℤ) (n : ℕ) :
    zpIs1 (zpPowMpz p a n) = true ↔ (a : ZMod p) ^ n = 1 := by
  have large := prime.out.one_lt
  have range : 0 ≤ zpPowMpz p a n ∧ zpPowMpz p a n < p :=
    ⟨Int.emod_nonneg _ (by omega), Int.emod_lt_of_pos _ (by omega)⟩
  rw [zpIs1, decide_eq_true_iff, ← zpPowMpz_cast a n]
  constructor
  · intro one
    rw [one, Int.cast_one]
  · intro one
    exact eq_of_cast_eq range ⟨by omega, by omega⟩ (one.trans Int.cast_one.symm)

end Values

section Runs

variable {ι : Type} [DecidableEq ι]

/-- The operations of the implementation on objects, the destination first. -/
inductive ZpOp (ι : Type) where
  | init (n : ι)
  | set0 (n : ι)
  | set1 (n : ι)
  | setSi (n : ι) (op : ℤ)
  | setMpz (n : ι) (z : ℤ)
  | setStr (n : ι) (s : List Char) (base : ℤ)
  | fromBytes (n : ι) (data : List UInt8)
  | fromHash (n : ι) (data : List UInt8)
  | set (n a : ι)
  | add (n a b : ι)
  | sub (n a b : ι)
  | mul (n a b : ι)
  | mulMpz (n a : ι) (z : ℤ)
  | mulSi (n a : ι) (z : ℤ)
  | square (n a : ι)
  | double (n a : ι)
  | halve (n a : ι)
  | neg (n a : ι)
  | invert (n a : ι)
  | powMpz (n a : ι) (z : ℕ)

/-- The destination of an operation. -/
def ZpOp.destination : ZpOp ι → ι
  | init n | set0 n | set1 n | setSi n _ | setMpz n _ | setStr n _ _ | fromBytes n _
  | fromHash n _ | set n _ | add n _ _ | sub n _ _ | mul n _ _ | mulMpz n _ _ | mulSi n _ _
  | square n _ | double n _ | halve n _ | neg n _ | invert n _ | powMpz n _ _ => n

/-- The integer that an operation leaves in its destination. -/
def ZpOp.value (p : ℕ) (s : ι → ℤ) : ZpOp ι → Option ℤ
  | init _ => some 0
  | set0 _ => some 0
  | set1 _ => some 1
  | setSi _ op => some (zpSetSi p op)
  | setMpz _ z => some (zpSetMpz p z)
  | setStr _ str base => some (zpSetStr p str base)
  | fromBytes _ data => some (zpFromBytes p data).1
  | fromHash _ data => zpFromHash p data
  | set _ a => some (s a)
  | add _ a b => some (zpAdd p (s a) (s b))
  | sub _ a b => some (zpSub p (s a) (s b))
  | mul _ a b => some (zpMul p (s a) (s b))
  | mulMpz _ a z => some (zpMulMpz p (s a) z)
  | mulSi _ a z => some (zpMulSi p (s a) z)
  | square _ a => some (zpSquare p (s a))
  | double _ a => some (zpDouble p (s a))
  | halve _ a => some (zpHalveRaw p (s a))
  | neg _ a => some (zpNeg p (s a))
  | invert _ a => mpzInvert p (s a)
  | powMpz _ a z => some (zpPowMpz p (s a) z)

/-- One operation on the objects of a program. -/
def zpStep (p : ℕ) (s : ι → ℤ) (op : ZpOp ι) : Option (ι → ℤ) :=
  (op.value p s).map (Function.update s op.destination)

/-- A sequence of operations. -/
def zpRun (p : ℕ) (ops : List (ZpOp ι)) (s : ι → ℤ) : Option (ι → ℤ) := ops.foldlM (zpStep p) s

/-- The condition on the steps that read outside data: the bytes read are below the
modulus, and the hash fits in its buffer and does not begin with the modulus. -/
def ZpOp.Reduced (p : ℕ) : ZpOp ι → Prop
  | fromBytes _ data => mpzImport (data.take (fixedLengthInBytes p)) < p
  | fromHash _ data => byteCount p ≤ 2 * maxLimbs ∧
      ∀ k, mpzImport (hashBuf (byteCount p) data) / 2 ^ k ≠ p
  | _ => True

/-- Every object holds a reduced integer. -/
def Canonical (p : ℕ) (s : ι → ℤ) : Prop := ∀ i, 0 ≤ s i ∧ s i < p

/-- The loop ends with a right shift of its integer that is at most the limit. -/
theorem shrinkLoop_spec (limit fuel z : ℕ) (enough : z < 2 ^ fuel) :
    shrinkLoop limit fuel z ≤ limit ∧ ∃ k, shrinkLoop limit fuel z = z / 2 ^ k := by
  induction fuel generalizing z with
  | zero =>
    have zero : z = 0 := by simpa using enough
    subst zero
    exact ⟨Nat.zero_le _, 0, rfl⟩
  | succ fuel ih =>
    rw [shrinkLoop]
    split
    · obtain ⟨bounded, k, shifted⟩ := ih (z / 2) (by rw [pow_succ] at enough; omega)
      refine ⟨bounded, k + 1, ?_⟩
      rw [shifted, Nat.div_div_eq_div_mul, pow_succ']
    · next small => exact ⟨not_lt.mp small, 0, by rw [pow_zero, Nat.div_one]⟩

/-- A hash is at most the modulus, and is the modulus only when its bytes begin so. -/
theorem zpFromHash_lt {p : ℕ} {data : List UInt8}
    (different : ∀ k, mpzImport (hashBuf (byteCount p) data) / 2 ^ k ≠ p) {z : ℤ}
    (hashed : zpFromHash p data = some z) : 0 ≤ z ∧ z < p := by
  simp only [zpFromHash, pbcMpzFromHash] at hashed
  split at hashed
  · obtain ⟨bounded, k, shifted⟩ := shrinkLoop_spec p _ (mpzImport (hashBuf (byteCount p) data))
      (Nat.lt_log2_self)
    have value := Option.some.inj hashed
    have distinct := different k
    rw [← shifted] at distinct
    rw [← value]
    exact ⟨Int.natCast_nonneg _, Int.ofNat_lt.mpr (lt_of_le_of_ne bounded distinct)⟩
  · cases hashed

omit [DecidableEq ι] in
/-- A step with reduced outside data keeps every integer reduced. -/
theorem ZpOp.value_canonical {p : ℕ} (large : 2 < p) {s : ι → ℤ} (canonical : Canonical p s)
    {op : ZpOp ι} (reduced : op.Reduced p) {z : ℤ} (value : op.value p s = some z) :
    0 ≤ z ∧ z < p := by
  have modulus : (0 : ℤ) < p := by omega
  have remainder (z : ℤ) : 0 ≤ z % p ∧ z % p < p :=
    ⟨Int.emod_nonneg z modulus.ne', Int.emod_lt_of_pos z modulus⟩
  cases op with
  | init n =>
    obtain rfl := Option.some.inj value
    omega
  | set0 n =>
    obtain rfl := Option.some.inj value
    omega
  | set1 n =>
    obtain rfl := Option.some.inj value
    omega
  | setSi n op =>
    obtain rfl := Option.some.inj value
    exact remainder _
  | setMpz n z =>
    obtain rfl := Option.some.inj value
    exact remainder _
  | setStr n str base =>
    obtain rfl := Option.some.inj value
    exact remainder _
  | fromBytes n data =>
    obtain rfl := Option.some.inj value
    exact ⟨Int.natCast_nonneg _, Int.ofNat_lt.mpr reduced⟩
  | fromHash n data => exact zpFromHash_lt reduced.2 value
  | set n a =>
    obtain rfl := Option.some.inj value
    exact canonical a
  | add n a b =>
    obtain rfl := Option.some.inj value
    exact zpAdd_reduced (canonical a) (canonical b)
  | sub n a b =>
    obtain rfl := Option.some.inj value
    obtain ⟨lower, upper⟩ := canonical b
    exact zpSub_reduced (canonical a) ⟨lower, upper.le⟩
  | mul n a b =>
    obtain rfl := Option.some.inj value
    exact remainder _
  | mulMpz n a z =>
    obtain rfl := Option.some.inj value
    exact remainder _
  | mulSi n a z =>
    obtain rfl := Option.some.inj value
    exact remainder _
  | square n a =>
    obtain rfl := Option.some.inj value
    exact remainder _
  | double n a =>
    obtain rfl := Option.some.inj value
    exact zpDouble_reduced (canonical a)
  | halve n a =>
    obtain rfl := Option.some.inj value
    exact zpHalveRaw_reduced (canonical a)
  | neg n a =>
    obtain rfl := Option.some.inj value
    exact zpNeg_reduced (canonical a)
  | invert n a =>
    simp only [ZpOp.value, mpzInvert] at value
    split at value
    · obtain rfl := Option.some.inj value
      exact remainder _
    · cases value
  | powMpz n a z =>
    obtain rfl := Option.some.inj value
    exact remainder _

theorem zpStep_canonical {p : ℕ} (large : 2 < p) {s s' : ι → ℤ} (canonical : Canonical p s)
    {op : ZpOp ι} (reduced : op.Reduced p) (step : zpStep p s op = some s') : Canonical p s' := by
  obtain ⟨z, value, rfl⟩ := Option.map_eq_some_iff.mp step
  have range := op.value_canonical large canonical reduced value
  intro i
  by_cases same : i = op.destination
  · rw [same, Function.update_self]
    exact range
  · rw [Function.update_of_ne same]
    exact canonical i

/-- A run with reduced outside data keeps every integer reduced. -/
theorem zpRun_canonical {p : ℕ} (large : 2 < p) (ops : List (ZpOp ι)) {s s' : ι → ℤ}
    (canonical : Canonical p s) (reduced : ∀ op ∈ ops, op.Reduced p)
    (run : zpRun p ops s = some s') : Canonical p s' := by
  induction ops generalizing s with
  | nil =>
    obtain rfl := Option.some.inj run
    exact canonical
  | cons op ops ih =>
    rw [zpRun, List.foldlM_cons] at run
    obtain ⟨middle, step, rest⟩ := Option.bind_eq_some_iff.mp run
    exact ih (zpStep_canonical large canonical (reduced op (by simp)) step)
      (fun op member => reduced op (by simp [member])) rest

omit [DecidableEq ι] in
/-- Reduced integers of one residue class are equal. -/
theorem Canonical.eq_of_cast_eq {p : ℕ} {s : ι → ℤ} (canonical : Canonical p s) {i j : ι}
    (same : (s i : ZMod p) = s j) : s i = s j :=
  Arith.eq_of_cast_eq (canonical i) (canonical j) same

/-- What the caller promises: only invertible elements are inverted. -/
def ZpOp.Legal (p : ℕ) (s : ι → ℤ) : ZpOp ι → Prop
  | invert _ a => (s a : ZMod p) ≠ 0
  | _ => True

/-- A legal step with reduced outside data returns. -/
theorem zpStep_defined {p : ℕ} (prime : p.Prime) (s : ι → ℤ) {op : ZpOp ι}
    (reduced : op.Reduced p) (legal : op.Legal p s) : ∃ s', zpStep p s op = some s' := by
  have defined : ∃ z, op.value p s = some z := by
    cases op with
    | fromHash n data =>
      exact ⟨_, congrArg (Option.map Nat.cast) (if_pos reduced.1)⟩
    | invert n a =>
      have field : Fact p.Prime := ⟨prime⟩
      obtain ⟨b, inverted, -⟩ := mpzInvert_cast legal
      exact ⟨b, inverted⟩
    | _ => exact ⟨_, rfl⟩
  obtain ⟨z, value⟩ := defined
  exact ⟨_, by rw [zpStep, value]; rfl⟩

/-- In a run whose outside data is reduced every element holds an integer in
`0, ..., p - 1`, so what the tests and the encoder see is a function of the residue
class; and the next legal step returns. -/
theorem zpRun_invariant {p : ℕ} (prime : p.Prime) (large : 2 < p) (ops : List (ZpOp ι))
    (reduced : ∀ op ∈ ops, op.Reduced p) {s : ι → ℤ} (run : zpRun p ops (fun _ => 0) = some s) :
    (∀ i, 0 ≤ s i ∧ s i < p) ∧
      (∀ i j, (s i : ZMod p) = s j → zpCmp (s i) (s j) = 0 ∧ zpIs0 (s i) = zpIs0 (s j) ∧
        zpIs1 (s i) = zpIs1 (s j) ∧ zpSgnOdd (s i) = zpSgnOdd (s j) ∧
        zpToBytes p (s i) = zpToBytes p (s j)) ∧
      ∀ op : ZpOp ι, op.Reduced p → op.Legal p s → ∃ s', zpStep p s op = some s' := by
  have start : Canonical p fun _ : ι => 0 := by
    intro i
    show (0 : ℤ) ≤ 0 ∧ (0 : ℤ) < p
    omega
  have canonical := zpRun_canonical large ops start reduced run
  refine ⟨canonical, fun i j same => ?_, fun op => zpStep_defined prime s⟩
  rw [canonical.eq_of_cast_eq same]
  refine ⟨?_, rfl, rfl, rfl, rfl⟩
  rw [zpCmp, if_neg (lt_irrefl _), if_pos rfl]

/-- A run modulo 5 that reads the byte 3 and hashes the byte 4. -/
theorem zpRun_invariant_five :
    ∃ s : Fin 2 → ℤ, zpRun 5 [.fromBytes 0 [3], .fromHash 1 [4], .add 0 0 1] (fun _ => 0) =
      some s ∧ ∀ i, 0 ≤ s i ∧ s i < (5 : ℕ) := by
  have run : zpRun 5 [.fromBytes 0 [3], .fromHash 1 [4], .add 0 0 1] (fun _ => 0) =
      some (![2, 4] : Fin 2 → ℤ) := by
    refine congrArg some (funext fun i => ?_)
    fin_cases i <;> rfl
  refine ⟨_, run, (zpRun_invariant (by decide) (by decide) _ ?_ run).1⟩
  intro op member
  rcases List.mem_cons.mp member with rfl | member
  · show mpzImport _ < 5
    decide
  · rcases List.mem_cons.mp member with rfl | member
    · refine ⟨by decide, fun k shifted => ?_⟩
      have small : mpzImport (hashBuf (byteCount 5) [4]) / 2 ^ k ≤ 4 :=
        Nat.div_le_self 4 (2 ^ k)
      omega
    · obtain rfl := List.mem_singleton.mp member
      trivial

/-- Modulo 5 the byte 5 is read and hashed as the integer 5, a zero that is not found
to be one. -/
theorem zpRun_unreduced_five :
    ∃ s : Fin 2 → ℤ, zpRun 5 [.fromBytes 0 [5], .fromHash 1 [5]] (fun _ => 0) = some s ∧
      (¬∀ i, 0 ≤ s i ∧ s i < (5 : ℕ)) ∧ (s 0 : ZMod 5) = 0 ∧ zpIs0 (s 0) = false ∧ s 1 = 5 := by
  refine ⟨_, rfl, ?_, ?_, ?_, ?_⟩
  · intro canonical
    exact absurd (canonical 0).2 (by decide)
  · decide
  · decide
  · decide

end Runs

end Pbc.Arith
