import Mathlib.Algebra.Order.Group.Nat
import Mathlib.Data.List.Basic
import Mathlib.Tactic.Ring
import Pbc.Gmp.Mpz

/-!
# Integers and bytes

The big-endian bytes that the integer library imports and exports. An export of
a nonzero integer takes as many bytes as its absolute value needs and no sign;
`pbc_mpz_out_raw_n` pads it to a given length.
-/

namespace Pbc.Gmp

/-- `mpz_import` of whole bytes, the most significant one first. -/
def mpzImport (data : List UInt8) : ℕ := data.foldl (fun z byte => 256 * z + byte.toNat) 0

/-- The bytes of an integer in `count` bytes, the most significant one first. -/
def bigEndian : ℕ → ℕ → List UInt8
  | 0, _ => []
  | count + 1, z => bigEndian count (z / 256) ++ [UInt8.ofNat (z % 256)]

/-- The number of bytes of an integer, `(mpz_sizeinbase(z, 2) + 7) / 8`. -/
def byteCount (z : ℕ) : ℕ := (mpzSizeinbase2 z + 7) / 8

/-- `mpz_export` of whole bytes, the most significant one first; the sign is lost, and
nothing is written for zero. -/
def mpzExport (z : ℤ) : List UInt8 := if z = 0 then [] else bigEndian (byteCount z.natAbs) z.natAbs

/-- `pbc_mpz_out_raw_n`: the `n` bytes at `data`. An integer with more bytes is
written from before the start of the buffer. -/
def pbcMpzOutRawN (n : ℕ) (z : ℤ) : Option (List UInt8) :=
  if z ≠ 0 then
    let count := byteCount z.natAbs
    if count ≤ n then some (List.replicate (n - count) 0 ++ mpzExport z) else none
  else some (List.replicate n 0)

@[simp] theorem length_bigEndian (count z : ℕ) : (bigEndian count z).length = count := by
  induction count generalizing z with
  | zero => rfl
  | succ count ih => rw [bigEndian, List.length_append, ih, List.length_singleton]

/-- The import reads its bytes from the left. -/
theorem mpzImport_append (front back : List UInt8) :
    mpzImport (front ++ back) = mpzImport front * 256 ^ back.length + mpzImport back := by
  have start (z : ℕ) : back.foldl (fun z byte => 256 * z + byte.toNat) z =
      z * 256 ^ back.length + mpzImport back := by
    induction back using List.reverseRecOn with
    | nil => simp [mpzImport]
    | append_singleton back byte ih =>
      simp only [mpzImport, List.foldl_append, List.foldl_cons, List.foldl_nil, List.length_append,
        List.length_singleton] at ih ⊢
      rw [ih]
      ring
  rw [mpzImport, List.foldl_append]
  exact start _

theorem mpzImport_bigEndian (count z : ℕ) : mpzImport (bigEndian count z) = z % 256 ^ count := by
  induction count generalizing z with
  | zero => simp [bigEndian, mpzImport, Nat.mod_one]
  | succ count ih =>
    have last : mpzImport [UInt8.ofNat (z % 256)] = z % 256 := by
      simp [mpzImport, UInt8.toNat_ofNat']
    rw [bigEndian, mpzImport_append, ih, last, List.length_singleton, pow_one, pow_succ',
      Nat.mod_mul, mul_comm, add_comm]

theorem mpzImport_replicate_zero (n : ℕ) : mpzImport (List.replicate n 0) = 0 := by
  induction n with
  | zero => rfl
  | succ n ih =>
    rw [List.replicate_succ', mpzImport_append, ih]
    rfl

theorem mpzImport_lt (data : List UInt8) : mpzImport data < 256 ^ data.length := by
  induction data using List.reverseRecOn with
  | nil => decide
  | append_singleton data byte ih =>
    have last : mpzImport [byte] < 256 := by
      simpa [mpzImport] using byte.toNat_lt
    rw [mpzImport_append, List.length_append, List.length_singleton, pow_one, pow_succ]
    omega

/-- The bytes are enough for the integer. -/
theorem lt_pow_byteCount (z : ℕ) : z < 256 ^ byteCount z := by
  have bound : z < 2 ^ (z.log2 + 1) := Nat.lt_log2_self
  have enough : z.log2 + 1 ≤ 8 * byteCount z := by
    rw [byteCount, mpzSizeinbase2]
    omega
  calc z < 2 ^ (z.log2 + 1) := bound
    _ ≤ 2 ^ (8 * byteCount z) := Nat.pow_le_pow_right (by decide) enough
    _ = 256 ^ byteCount z := by rw [pow_mul]; norm_num

/-- An integer below `256^n` needs at most `n` bytes, unless it is zero. -/
theorem byteCount_le_iff {z n : ℕ} (nonzero : z ≠ 0) : byteCount z ≤ n ↔ z < 256 ^ n := by
  constructor
  · intro short
    exact (lt_pow_byteCount z).trans_le (Nat.pow_le_pow_right (by decide) short)
  · intro small
    have exponent : z.log2 < 8 * n := by
      rw [Nat.log2_lt nonzero, pow_mul]
      simpa using small
    rw [byteCount, mpzSizeinbase2]
    omega

/-- What is written is as long as the buffer and is read back as the absolute value;
nothing is written exactly when that has too many bytes. -/
theorem pbcMpzOutRawN_eq (n : ℕ) (z : ℤ) :
    (z.natAbs < 256 ^ n → ∃ data, pbcMpzOutRawN n z = some data ∧ data.length = n ∧
      mpzImport data = z.natAbs) ∧ (¬z.natAbs < 256 ^ n → pbcMpzOutRawN n z = none) := by
  by_cases zero : z = 0
  · subst zero
    refine ⟨fun _ => ⟨_, by rw [pbcMpzOutRawN, if_neg (by simp)], by simp, ?_⟩, fun large => ?_⟩
    · exact mpzImport_replicate_zero n
    · exact absurd (by positivity) large
  · have nonzero : z.natAbs ≠ 0 := Int.natAbs_ne_zero.mpr zero
    constructor
    · intro small
      have short := (byteCount_le_iff nonzero).mpr small
      refine ⟨List.replicate (n - byteCount z.natAbs) 0 ++ mpzExport z, ?_, ?_, ?_⟩
      · rw [pbcMpzOutRawN, if_pos zero]
        exact if_pos short
      · rw [List.length_append, List.length_replicate, mpzExport, if_neg zero, length_bigEndian]
        omega
      · rw [mpzImport_append, mpzImport_replicate_zero, zero_mul, zero_add, mpzExport, if_neg zero,
          mpzImport_bigEndian, Nat.mod_eq_of_lt (lt_pow_byteCount _)]
    · intro large
      rw [pbcMpzOutRawN, if_pos zero]
      exact if_neg ((byteCount_le_iff nonzero).not.mpr large)

end Pbc.Gmp
