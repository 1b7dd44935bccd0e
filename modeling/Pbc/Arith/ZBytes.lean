import Pbc.Gmp.Bytes

/-!
# Bytes of integers

The byte methods of `field_init_z`: four bytes that hold a length, then the absolute value
with the sign in its most significant bit, behind a null byte where that bit is taken. The
memory behind `data` is part of the model, since zero leaves a byte of it as it was and the
reader clears the bit of a sign.
-/

open Pbc.Gmp

namespace Pbc.Arith

section Operations

/-- The memory from `data` on. -/
abbrev ByteMemory := ℕ → UInt8

/-- Writing bytes from an index on. -/
def writeBytes (data : ByteMemory) (start : ℕ) (bytes : List UInt8) : ByteMemory :=
  fun i => if start ≤ i then bytes.getD (i - start) (data i) else data i

/-- The loop that writes the four bytes of a length. -/
def writeLength (data : ByteMemory) (n : ℕ) : ByteMemory :=
  fun i => if i < 4 then UInt8.ofNat (n >>> (8 * (3 - i))) else data i

/-- `z_to_bytes`: the memory and the number that is returned. -/
def zToBytes (data : ByteMemory) (z : ℤ) : ByteMemory × ℤ :=
  let msb := mpzSizeinbase2 z.natAbs
  let n := 4
  let padded := msb % 8 = 0
  let data := if padded then Function.update data 4 0 else data
  let n := if padded then n + 1 else n
  let data :=
    if z < 0 then
      let data := writeBytes data n (mpzExport z)
      Function.update data 4 (data 4 ||| 128)
    else writeBytes data n (mpzExport z)
  let n := n + (msb + 7) / 8 - 4
  let data := writeLength data n
  let n := n + 4
  (data, intWrap n)

/-- The loop of `z_from_bytes` that adds up the bytes. -/
def zFromBytesLoop (data : ByteMemory) (n : ℕ) : ℕ → ℤ
  | 0 => 0
  | i + 1 => zFromBytesLoop data n i + (data (4 + i)).toNat * 2 ^ (8 * (n - 1 - i))

/-- The length in the first four bytes. -/
def readLength (data : ByteMemory) : ℕ :=
  (data 0).toNat <<< 24 + (data 1).toNat <<< 16 + (data 2).toNat <<< 8 + (data 3).toNat <<< 0

/-- What `z_from_bytes` leaves in the element and in the memory, and what it returns. -/
structure ZRead where
  value : ℤ
  data : ByteMemory
  count : ℤ

/-- `z_from_bytes`. -/
def zFromBytes (data : ByteMemory) : ZRead :=
  let n := readLength data
  let neg := data 4 &&& 128 ≠ 0
  let data := if neg then Function.update data 4 (data 4 &&& 127) else data
  let z := zFromBytesLoop data n n
  ⟨if neg then -z else z, data, intWrap n⟩

/-- `z_length_in_bytes`. -/
def zLengthInBytes (z : ℤ) : ℤ := intWrap ((mpzSizeinbase2 z.natAbs + 7) / 8 + 4)

end Operations

/-- What is written is as long as announced, a function of the integer, read back with the
same number of bytes, and still there afterwards. -/
structure ZRoundTrips (z : ℤ) : Prop where
  announced : ∀ data, (zToBytes data z).2 = zLengthInBytes z
  outside : ∀ data (i : ℕ), zLengthInBytes z ≤ i → (zToBytes data z).1 i = data i
  determined : ∀ data data' (i : ℕ), i < zLengthInBytes z →
    (zToBytes data z).1 i = (zToBytes data' z).1 i
  value : ∀ data, (zFromBytes (zToBytes data z).1).value = z
  count : ∀ data, (zFromBytes (zToBytes data z).1).count = (zToBytes data z).2
  unchanged : ∀ data, (zFromBytes (zToBytes data z).1).data = (zToBytes data z).1

section Memory

variable (data : ByteMemory)

theorem writeBytes_nil (start : ℕ) : writeBytes data start [] = data := by
  funext i
  simp [writeBytes]

theorem writeBytes_inside {start i : ℕ} {bytes : List UInt8} (inside : i < bytes.length) :
    writeBytes data start bytes (start + i) = bytes.getD i 0 := by
  rw [writeBytes, if_pos (Nat.le_add_right _ _), Nat.add_sub_cancel_left,
    List.getD_eq_getElem _ _ inside, List.getD_eq_getElem _ _ inside]

theorem writeBytes_behind {start i : ℕ} {bytes : List UInt8} (behind : start + bytes.length ≤ i) :
    writeBytes data start bytes i = data i := by
  rw [writeBytes, if_pos (by omega), List.getD_eq_default _ _ (by omega)]

/-- Writing a byte and the others behind it. -/
theorem writeBytes_cons (start : ℕ) (byte : UInt8) (bytes : List UInt8) :
    writeBytes data start (byte :: bytes) =
      writeBytes (Function.update data start byte) (start + 1) bytes := by
  funext i
  rcases lt_trichotomy i start with before | rfl | behind
  · rw [writeBytes, writeBytes, if_neg (by omega), if_neg (by omega),
      Function.update_of_ne before.ne]
  · rw [writeBytes, writeBytes, if_pos le_rfl, if_neg (by omega), Nat.sub_self,
      Function.update_self, List.getD_cons_zero]
  · obtain ⟨j, rfl⟩ := Nat.exists_eq_add_of_lt behind
    rw [writeBytes, writeBytes, if_pos (by omega), if_pos (by omega),
      Function.update_of_ne (by omega), show start + j + 1 - start = j + 1 by omega,
      show start + j + 1 - (start + 1) = j by omega, List.getD_cons_succ]

/-- Changing the first of the bytes that were written. -/
theorem update_writeBytes (start : ℕ) (byte byte' : UInt8) (bytes : List UInt8) :
    Function.update (writeBytes data start (byte :: bytes)) start byte' =
      writeBytes data start (byte' :: bytes) := by
  funext i
  rcases lt_trichotomy i start with before | rfl | behind
  · rw [Function.update_of_ne before.ne, writeBytes, writeBytes, if_neg (by omega),
      if_neg (by omega)]
  · rw [Function.update_self, writeBytes, if_pos le_rfl, Nat.sub_self, List.getD_cons_zero]
  · obtain ⟨j, rfl⟩ := Nat.exists_eq_add_of_lt behind
    rw [Function.update_of_ne (by omega), writeBytes, writeBytes, if_pos (by omega),
      if_pos (by omega), show start + j + 1 - start = j + 1 by omega, List.getD_cons_succ,
      List.getD_cons_succ]

/-- The length that is read is the one that was written, in four bytes. -/
theorem readLength_writeLength (n : ℕ) : readLength (writeLength data n) = n % 2 ^ 32 := by
  have byte {i : ℕ} (header : i < 4) :
      (writeLength data n i).toNat = n / 2 ^ (8 * (3 - i)) % 256 := by
    rw [writeLength, if_pos header, UInt8.toNat_ofNat', Nat.shiftRight_eq_div_pow]
  have digit (k : ℕ) : n % 2 ^ (k + 8) = n % 2 ^ k + 2 ^ k * (n / 2 ^ k % 256) := by
    rw [pow_add]
    exact Nat.mod_mul
  calc readLength (writeLength data n)
      = n / 2 ^ 24 % 256 * 2 ^ 24 + n / 2 ^ 16 % 256 * 2 ^ 16 + n / 2 ^ 8 % 256 * 2 ^ 8 +
          n % 256 := by
        simp only [readLength, byte (by decide : 0 < 4), byte (by decide : 1 < 4),
          byte (by decide : 2 < 4), byte (by decide : 3 < 4), Nat.shiftLeft_eq, Nat.sub_self,
          Nat.mul_zero, pow_zero, Nat.div_one, Nat.mul_one, Nat.reduceMul, Nat.reduceSub]
    _ = n % 256 + 2 ^ 8 * (n / 2 ^ 8 % 256) + 2 ^ 16 * (n / 2 ^ 16 % 256) +
          2 ^ 24 * (n / 2 ^ 24 % 256) := by ring
    _ = n % 2 ^ 32 := by rw [digit 24, digit 16, digit 8, show 2 ^ 8 = 256 from rfl]

/-- What the loop of the reader adds up. -/
theorem zFromBytesLoop_eq (n : ℕ) {k : ℕ} (bounded : k ≤ n) :
    zFromBytesLoop data n k =
      mpzImport ((List.range k).map fun i => data (4 + i)) * 2 ^ (8 * (n - k)) := by
  induction k with
  | zero => simp [zFromBytesLoop, mpzImport]
  | succ k ih =>
    have last (byte : UInt8) : mpzImport [byte] = byte.toNat := by simp [mpzImport]
    have shift : 8 * (n - k) = 8 + 8 * (n - (k + 1)) := by omega
    have place : 8 * (n - 1 - k) = 8 * (n - (k + 1)) := by omega
    rw [zFromBytesLoop, ih (by omega), List.range_succ, List.map_append, List.map_singleton,
      mpzImport_append, List.length_singleton, last, shift, place, pow_add]
    push_cast
    ring

/-- The loop reads the bytes that were written behind the length. -/
theorem zFromBytesLoop_writeBytes (bytes : List UInt8) :
    zFromBytesLoop (writeBytes data 4 bytes) bytes.length bytes.length = mpzImport bytes := by
  have same : (List.range bytes.length).map (fun i => writeBytes data 4 bytes (4 + i)) = bytes := by
    apply List.ext_getElem
    · rw [List.length_map, List.length_range]
    · intro i inside inside'
      rw [List.getElem_map, List.getElem_range, writeBytes_inside data inside',
        List.getD_eq_getElem _ _ inside']
  rw [zFromBytesLoop_eq _ _ le_rfl, same, Nat.sub_self, mul_zero, pow_zero, mul_one]

/-- The length is written in front of the bytes. -/
theorem update_writeLength (n : ℕ) {i : ℕ} (behind : 4 ≤ i) (byte : UInt8) :
    Function.update (writeLength data n) i byte = writeLength (Function.update data i byte) n := by
  funext j
  by_cases same : j = i
  · subst same
    rw [Function.update_self, writeLength, if_neg (by omega), Function.update_self]
  · rw [Function.update_of_ne same, writeLength, writeLength, Function.update_of_ne same]

theorem zFromBytesLoop_writeLength (length n k : ℕ) :
    zFromBytesLoop (writeLength data length) n k = zFromBytesLoop data n k := by
  induction k with
  | zero => rfl
  | succ k ih => rw [zFromBytesLoop, zFromBytesLoop, ih, writeLength, if_neg (by omega)]

end Memory

section Bytes

/-- The bytes of the absolute value, behind a null byte where the sign needs one. -/
def zBytes (z : ℤ) : List UInt8 :=
  if mpzSizeinbase2 z.natAbs % 8 = 0 then 0 :: mpzExport z else mpzExport z

/-- Setting the most significant bit of a negative number. -/
def signBytes (z : ℤ) : List UInt8 → List UInt8
  | [] => []
  | byte :: bytes => (if z < 0 then byte ||| 128 else byte) :: bytes

/-- The number of the bytes behind the length. -/
def zSize (z : ℤ) : ℕ :=
  (mpzSizeinbase2 z.natAbs + 7) / 8 + if mpzSizeinbase2 z.natAbs % 8 = 0 then 1 else 0

/-- The number as the writer computes it. -/
theorem zSize_eq (z : ℤ) : (if mpzSizeinbase2 z.natAbs % 8 = 0 then 4 + 1 else 4) +
    (mpzSizeinbase2 z.natAbs + 7) / 8 - 4 = zSize z := by
  rw [zSize]
  split
  · omega
  · omega

variable {z : ℤ}

theorem length_zBytes (nonzero : z ≠ 0) : (zBytes z).length = zSize z := by
  have size : (mpzExport z).length = byteCount z.natAbs := by
    rw [mpzExport, if_neg nonzero, length_bigEndian]
  rw [zBytes, zSize]
  split
  · rw [List.length_cons, size, byteCount]
  · rw [size, byteCount, add_zero]

theorem mpzImport_zBytes (nonzero : z ≠ 0) : mpzImport (zBytes z) = z.natAbs := by
  have value : mpzImport (mpzExport z) = z.natAbs := by
    rw [mpzExport, if_neg nonzero, mpzImport_bigEndian, Nat.mod_eq_of_lt (lt_pow_byteCount _)]
  rw [zBytes]
  split
  · exact value
  · exact value

/-- The first of the bytes of a number has at least its place value. -/
theorem head_mul_le (byte : UInt8) (bytes : List UInt8) :
    byte.toNat * 256 ^ bytes.length ≤ mpzImport (byte :: bytes) := by
  have split := mpzImport_append [byte] bytes
  have first : mpzImport [byte] = byte.toNat := by simp [mpzImport]
  rw [List.singleton_append, first] at split
  omega

/-- The most significant bit is free for the sign. -/
theorem zBytes_cons (nonzero : z ≠ 0) : ∃ byte bytes, zBytes z = byte :: bytes ∧ byte < 128 := by
  have size := length_zBytes nonzero
  have value := mpzImport_zBytes nonzero
  by_cases padded : mpzSizeinbase2 z.natAbs % 8 = 0
  · exact ⟨0, mpzExport z, if_pos padded, by decide⟩
  · rw [zSize, if_neg padded, add_zero] at size
    cases bytes : zBytes z with
    | nil =>
      rw [bytes, List.length_nil, mpzSizeinbase2] at size
      omega
    | cons byte rest =>
      refine ⟨byte, rest, rfl, ?_⟩
      by_contra large
      rw [bytes, List.length_cons] at size
      rw [bytes] at value
      have place := head_mul_le byte rest
      have top : 128 ≤ byte.toNat := UInt8.not_lt.mp large
      have bits : mpzSizeinbase2 z.natAbs ≤ 8 * rest.length + 7 := by omega
      have bound : z.natAbs < 128 * 256 ^ rest.length :=
        calc z.natAbs < 2 ^ mpzSizeinbase2 z.natAbs := Nat.lt_log2_self
          _ ≤ 2 ^ (8 * rest.length + 7) := Nat.pow_le_pow_right (by decide) bits
          _ = 128 * 256 ^ rest.length := by
            rw [pow_add, pow_mul, mul_comm]
            norm_num
      have scaled := Nat.mul_le_mul_right (256 ^ rest.length) top
      omega

/-- The bit of the sign: clear below 128, set and cleared again by the two masks. -/
theorem sign_bit {byte : UInt8} (small : byte < 128) :
    byte &&& 128 = 0 ∧ (byte ||| 128) &&& 128 ≠ 0 ∧ (byte ||| 128) &&& 127 = byte := by
  have all : ∀ n < 128, UInt8.ofNat n &&& 128 = 0 ∧ (UInt8.ofNat n ||| 128) &&& 128 ≠ 0 ∧
      (UInt8.ofNat n ||| 128) &&& 127 = UInt8.ofNat n := by
    decide
  have masks := all byte.toNat small
  rwa [UInt8.ofNat_toNat] at masks

end Bytes

section Runs

variable (data : ByteMemory) {z : ℤ}

/-- The memory that `z_to_bytes` leaves, before and after the sign is set. -/
theorem zToBytes_data (nonzero : z ≠ 0) : (zToBytes data z).1 =
    writeLength (writeBytes data 4 (signBytes z (zBytes z))) (zSize z) := by
  have written : writeBytes
      (if mpzSizeinbase2 z.natAbs % 8 = 0 then Function.update data 4 0 else data)
      (if mpzSizeinbase2 z.natAbs % 8 = 0 then 4 + 1 else 4) (mpzExport z) =
      writeBytes data 4 (zBytes z) := by
    rw [zBytes]
    split
    · rw [writeBytes_cons]
    · rfl
  obtain ⟨byte, bytes, cons, -⟩ := zBytes_cons nonzero
  have head : writeBytes data 4 (zBytes z) 4 = byte := by
    rw [cons]
    exact writeBytes_inside data (i := 0) (by rw [List.length_cons]; omega)
  simp only [zToBytes, written, zSize_eq]
  split
  · next negative => rw [head, cons, update_writeBytes, signBytes, if_pos negative]
  · next positive => rw [cons, signBytes, if_neg positive]

/-- The number that is returned. -/
theorem zToBytes_count (z : ℤ) : (zToBytes data z).2 = intWrap (zSize z + 4) := by
  simp only [zToBytes, zSize_eq]
  push_cast
  rfl

/-- The length that is written, in four bytes. -/
theorem readLength_zToBytes (z : ℤ) : readLength (zToBytes data z).1 = zSize z % 2 ^ 32 := by
  simp only [zToBytes, zSize_eq, readLength_writeLength]

/-- Zero writes its length only. -/
theorem zToBytes_zero : (zToBytes data 0).1 = writeLength data 1 := by
  have size : mpzSizeinbase2 (0 : ℤ).natAbs = 1 := by decide
  have nothing : mpzExport 0 = [] := rfl
  simp only [zToBytes, size, nothing, writeBytes_nil]
  rfl

/-- The number that the reader returns is the length that it reads. -/
theorem zFromBytes_returns : (zFromBytes data).count = intWrap (readLength data) := by
  simp only [zFromBytes]

/-- What `z_from_bytes` makes of the bytes of a nonzero integer. -/
theorem zFromBytes_eq (nonzero : z ≠ 0) (fits : zSize z < 2 ^ 32) :
    zFromBytes (zToBytes data z).1 =
      ⟨z, writeLength (writeBytes data 4 (zBytes z)) (zSize z), intWrap (zSize z)⟩ := by
  have length := length_zBytes nonzero
  have value := mpzImport_zBytes nonzero
  have read := zFromBytesLoop_writeBytes data (zBytes z)
  obtain ⟨byte, bytes, cons, small⟩ := zBytes_cons nonzero
  obtain ⟨clear, set, back⟩ := sign_bit small
  rw [length, value] at read
  rw [zToBytes_data data nonzero, zFromBytes, readLength_writeLength, Nat.mod_eq_of_lt fits]
  by_cases negative : z < 0
  · have head : writeLength (writeBytes data 4 (signBytes z (zBytes z))) (zSize z) 4 =
        byte ||| 128 := by
      rw [writeLength, if_neg (by decide), cons, signBytes, if_pos negative]
      exact writeBytes_inside data (i := 0) (by rw [List.length_cons]; omega)
    have restored : Function.update (writeLength (writeBytes data 4 (signBytes z (zBytes z)))
        (zSize z)) 4 byte = writeLength (writeBytes data 4 (zBytes z)) (zSize z) := by
      rw [update_writeLength _ _ le_rfl, cons, signBytes, update_writeBytes]
    simp only [head, set, ne_eq, not_false_eq_true, if_true, back, restored,
      zFromBytesLoop_writeLength, read]
    rw [ZRead.mk.injEq]
    refine ⟨?_, rfl, rfl⟩
    omega
  · have unsigned : signBytes z (zBytes z) = zBytes z := by
      rw [cons, signBytes, if_neg negative]
    have head : writeLength (writeBytes data 4 (zBytes z)) (zSize z) 4 = byte := by
      rw [writeLength, if_neg (by decide), cons]
      exact writeBytes_inside data (i := 0) (by rw [List.length_cons]; omega)
    simp only [unsigned, head, clear, ne_eq, not_true_eq_false, if_false,
      zFromBytesLoop_writeLength, read]
    rw [ZRead.mk.injEq]
    refine ⟨?_, rfl, rfl⟩
    omega

end Runs

section Parts

variable {z : ℤ}

/-- The writer returns the announced length unless it needs the null byte. -/
theorem zToBytes_announced_iff :
    (∀ data, (zToBytes data z).2 = zLengthInBytes z) ↔ mpzSizeinbase2 z.natAbs % 8 ≠ 0 := by
  have lengths (data : ByteMemory) : (zToBytes data z).2 = zLengthInBytes z ↔
      mpzSizeinbase2 z.natAbs % 8 ≠ 0 := by
    rw [zToBytes_count, zLengthInBytes, zSize, intWrap, intWrap, Int.bmod, Int.bmod]
    push_cast
    split_ifs
    all_goals omega
  constructor
  · intro announced
    exact (lengths fun _ => 0).mp (announced _)
  · intro bits data
    exact (lengths data).mpr bits

/-- Every byte that is written depends on the integer alone, unless that is zero. -/
theorem zToBytes_determined_iff (fits : zSize z + 4 < 2 ^ 31) :
    (∀ data data' (i : ℕ), i < (zToBytes data z).2 →
      (zToBytes data z).1 i = (zToBytes data' z).1 i) ↔ z ≠ 0 := by
  constructor
  · rintro determined rfl
    have fourth := determined (fun _ => 0) (fun _ => 1) 4 (by rw [zToBytes_count]; decide)
    rw [zToBytes_zero, zToBytes_zero] at fourth
    exact absurd fourth (by decide)
  · intro nonzero data data' i inside
    have size : (signBytes z (zBytes z)).length = zSize z := by
      obtain ⟨byte, bytes, cons, -⟩ := zBytes_cons nonzero
      rw [← length_zBytes nonzero, cons]
      rfl
    rw [zToBytes_count, intWrap_eq (by omega) (by omega)] at inside
    rw [zToBytes_data data nonzero, zToBytes_data data' nonzero, writeLength, writeLength]
    split
    · rfl
    · next behind =>
      obtain ⟨j, rfl⟩ := Nat.exists_eq_add_of_le (Nat.not_lt.mp behind)
      rw [writeBytes_inside data (by omega), writeBytes_inside data' (by omega)]

/-- The integer is read back unless it is zero. -/
theorem zFromBytes_value_iff (fits : zSize z + 4 < 2 ^ 31) :
    (∀ data, (zFromBytes (zToBytes data z).1).value = z) ↔ z ≠ 0 := by
  constructor
  · rintro value rfl
    have one := value fun _ => 1
    rw [zToBytes_zero] at one
    exact absurd one (by decide)
  · intro nonzero data
    rw [zFromBytes_eq data nonzero (by omega)]

/-- Reading leaves the bytes of the positive integers alone. -/
theorem zFromBytes_unchanged_iff (fits : zSize z + 4 < 2 ^ 31) :
    (∀ data, (zFromBytes (zToBytes data z).1).data = (zToBytes data z).1) ↔ 0 < z := by
  rcases lt_trichotomy z 0 with negative | rfl | positive
  · obtain ⟨byte, bytes, cons, small⟩ := zBytes_cons negative.ne
    obtain ⟨clear, set, -⟩ := sign_bit small
    refine iff_of_false ?_ (by omega)
    intro unchanged
    have fourth := congrFun (unchanged fun _ => 0) 4
    have first (byte : UInt8) (bytes : List UInt8) :
        writeLength (writeBytes (fun _ => 0) 4 (byte :: bytes)) (zSize z) 4 = byte := by
      rw [writeLength, if_neg (by decide)]
      exact writeBytes_inside _ (i := 0) (by rw [List.length_cons]; omega)
    rw [zFromBytes_eq _ negative.ne (by omega), zToBytes_data _ negative.ne, cons, signBytes,
      if_pos negative, first] at fourth
    have same : byte ||| 128 = byte := fourth.symm.trans (first byte bytes)
    rw [same] at set
    exact set clear
  · refine iff_of_false ?_ (by omega)
    intro unchanged
    have fourth := congrFun (unchanged fun _ => 128) 4
    rw [zToBytes_zero] at fourth
    exact absurd fourth (by decide)
  · refine iff_of_true ?_ positive
    intro data
    obtain ⟨byte, bytes, cons, -⟩ := zBytes_cons positive.ne'
    rw [zFromBytes_eq data positive.ne' (by omega), zToBytes_data data positive.ne', cons, signBytes,
      if_neg (by omega)]

/-- Reading returns four less than was written. -/
theorem zFromBytes_count (fits : zSize z + 4 < 2 ^ 31) (data : ByteMemory) :
    (zFromBytes (zToBytes data z).1).count + 4 = (zToBytes data z).2 := by
  rw [zFromBytes_returns, readLength_zToBytes, Nat.mod_eq_of_lt (by omega), zToBytes_count,
    intWrap_eq (by omega) (by omega), intWrap_eq (by omega) (by omega)]

/-- The numbers of bytes written and read differ, also where they wrap. -/
theorem zFromBytes_count_ne (z : ℤ) (data : ByteMemory) :
    (zFromBytes (zToBytes data z).1).count ≠ (zToBytes data z).2 := by
  rw [zFromBytes_returns, readLength_zToBytes, zToBytes_count, intWrap, intWrap, Int.bmod, Int.bmod]
  push_cast
  split_ifs
  all_goals omega

/-- No integer makes the round trip: the reader does not count the bytes of the length. -/
theorem zRoundTrips_never (z : ℤ) : ¬ZRoundTrips z := by
  intro trip
  exact zFromBytes_count_ne z (fun _ => 0) (trip.count _)

/-- One is written into five bytes, and one byte is said to be read. -/
theorem zRoundTrips_one : ¬∀ z, ZRoundTrips z := by
  intro all
  exact zFromBytes_count_ne 1 (fun _ => 0) ((all 1).count _)

end Parts

end Pbc.Arith
