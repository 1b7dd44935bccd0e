import Pbc.Arith.NaiveFp
import Pbc.Misc.Fuel

/-!
# Hash expansion

The bytes that `pbc_mpz_from_hash` writes into its buffer, one `memcpy` and one
counter byte a turn. The loop has two exits. At both of them the buffer holds as
many bytes of `H || 0 || H || 1 || ...` as the limit has.
-/

open Pbc.Gmp Pbc.Misc

namespace Pbc.Arith

/-- What can go wrong in `pbc_mpz_from_hash`. -/
inductive HashFault where
  | fuel
  | overrun
  | assertion
deriving DecidableEq

/-- The cells of `buf`; a cell that was never written holds nothing. -/
abbrev HashCells := ℕ → Option UInt8

/-- `memcpy(buf + i, data, n)`. -/
def memcpyHash (buf : HashCells) (i : ℕ) (data : List UInt8) (n : ℕ) : Except HashFault HashCells :=
  if i + n ≤ 2 * maxLimbs ∧ n ≤ data.length then
    .ok fun j => if i ≤ j ∧ j < i + n then data[j - i]? else buf j
  else .error .overrun

/-- `buf[i] = counter`. -/
def writeHash (buf : HashCells) (i : ℕ) (counter : UInt8) : Except HashFault HashCells :=
  if i < 2 * maxLimbs then .ok (Function.update buf i (some counter)) else .error .overrun

/-- The first `n` bytes of `buf`, as `mpz_import` reads them. -/
def readHash (buf : HashCells) : ℕ → Except HashFault (List UInt8)
  | 0 => .ok []
  | n + 1 => do
      let front ← readHash buf n
      match buf n with
      | some byte => .ok (front ++ [byte])
      | none => .error .overrun

/-- The difference of two values of `size_t`. -/
def sizeSub (a b : ℕ) : ℕ := if b ≤ a then a - b else 2 ^ 64 + a - b

/-- The variables of the loop of `pbc_mpz_from_hash`. -/
structure HashState where
  i : ℕ
  counter : UInt8
  buf : HashCells

/-- One turn of the loop of `pbc_mpz_from_hash`, and whether it was the last one. -/
def hashTurn (count : ℕ) (data : List UInt8) (s : HashState) :
    Except HashFault (HashState × Bool) := do
  let finished := decide (data.length ≥ sizeSub count s.i)
  let n := if finished then sizeSub count s.i else data.length
  let buf ← memcpyHash s.buf s.i data n
  let i := s.i + n
  if finished then .ok (⟨i, s.counter, buf⟩, true)
  else
    let buf ← writeHash buf i s.counter
    .ok (⟨i + 1, s.counter + 1, buf⟩, i + 1 = count)

/-- The loop of `pbc_mpz_from_hash`. -/
def hashTurns (count : ℕ) (data : List UInt8) : ℕ → HashState → Except HashFault HashState
  | 0, _ => .error .fuel
  | fuel + 1, s => do
      let (s, last) ← hashTurn count data s
      if last then .ok s else hashTurns count data fuel s

/-- The halving loop of `pbc_mpz_from_hash`. -/
def hashShrink (limit : ℕ) : ℕ → ℕ → Except HashFault ℕ
  | 0, _ => .error .fuel
  | fuel + 1, z => if z > limit then hashShrink limit fuel (z / 2) else .ok z

/-- `pbc_mpz_from_hash` on its own buffer: what it leaves there, and the integer. -/
def pbcMpzFromHashAt (limit : ℕ) (data : List UInt8) (fuel : ℕ) :
    Except HashFault (HashCells × ℕ) := do
  let count := byteCount limit
  let s ← hashTurns count data fuel ⟨0, 0, fun _ => none⟩
  if s.i = count then
    let bytes ← readHash s.buf count
    let z ← hashShrink limit fuel (mpzImport bytes)
    .ok (s.buf, z)
  else .error .assertion

/-- The first blocks of `H || 0 || H || 1 || ...`, with the counter modulo 256. -/
def hashBlocks (data : List UInt8) (m : ℕ) : List UInt8 :=
  (List.range m).flatMap fun counter => data ++ [UInt8.ofNat counter]

/-- The buffer after some bytes were written from its start. -/
def hashCells (bytes : List UInt8) : HashCells := fun j => bytes[j]?

section Blocks

variable (data : List UInt8)

theorem hashBlocks_succ (m : ℕ) :
    hashBlocks data (m + 1) = hashBlocks data m ++ data ++ [UInt8.ofNat m] := by
  simp [hashBlocks, List.range_succ]

@[simp] theorem length_hashBlocks (m : ℕ) :
    (hashBlocks data m).length = m * (data.length + 1) := by
  induction m with
  | zero => simp [hashBlocks]
  | succ m ih =>
    simp only [hashBlocks_succ, List.length_append, List.length_singleton, ih]
    ring

theorem le_length_hashBlocks (m : ℕ) : m ≤ (hashBlocks data m).length := by
  rw [length_hashBlocks]
  exact Nat.le_mul_of_pos_right m (Nat.succ_pos _)

theorem hashBlocks_isPrefix {m n : ℕ} (fewer : m ≤ n) :
    hashBlocks data m <+: hashBlocks data n := by
  induction n, fewer using Nat.le_induction with
  | base => exact List.prefix_rfl
  | succ n fewer ih =>
    apply ih.trans
    exact ⟨data ++ [UInt8.ofNat n], by rw [hashBlocks_succ, List.append_assoc]⟩

end Blocks

section Cells

/-- A copy to the end of what was written. -/
theorem memcpyHash_cells (bytes data : List UInt8) (n : ℕ)
    (room : bytes.length + n ≤ 2 * maxLimbs) (most : n ≤ data.length) :
    memcpyHash (hashCells bytes) bytes.length data n =
      .ok (hashCells (bytes ++ data.take n)) := by
  have cells : (fun j => if bytes.length ≤ j ∧ j < bytes.length + n then data[j - bytes.length]?
      else hashCells bytes j) = hashCells (bytes ++ data.take n) := by
    ext1 j
    simp only [hashCells]
    by_cases front : j < bytes.length
    · rw [if_neg (by omega), List.getElem?_append_left front]
    · rw [List.getElem?_append_right (by omega), List.getElem?_take]
      by_cases back : j < bytes.length + n
      · rw [if_pos (by omega), if_pos (by omega)]
      · rw [if_neg (by omega), if_neg (by omega), List.getElem?_eq_none (by omega)]
  rw [memcpyHash, if_pos ⟨room, most⟩, cells]

/-- A byte written after the last one. -/
theorem writeHash_cells (bytes : List UInt8) (counter : UInt8)
    (room : bytes.length < 2 * maxLimbs) :
    writeHash (hashCells bytes) bytes.length counter = .ok (hashCells (bytes ++ [counter])) := by
  have cells : Function.update (hashCells bytes) bytes.length (some counter) =
      hashCells (bytes ++ [counter]) := by
    ext1 j
    by_cases same : j = bytes.length
    · subst same
      simp [hashCells]
    · rw [Function.update_of_ne same]
      by_cases front : j < bytes.length
      · simp only [hashCells, List.getElem?_append_left front]
      · simp only [hashCells]
        rw [List.getElem?_eq_none (by omega), List.getElem?_eq_none]
        rw [List.length_append, List.length_singleton]
        omega
  rw [writeHash, if_pos room, cells]

/-- What was written is read back. -/
theorem readHash_cells {bytes : List UInt8} {n : ℕ} (most : n ≤ bytes.length) :
    readHash (hashCells bytes) n = .ok (bytes.take n) := by
  induction n with
  | zero => rfl
  | succ n ih =>
    have cell : hashCells bytes n = some bytes[n] := List.getElem?_eq_getElem most
    simp only [readHash, ih (by omega), cell]
    exact congrArg Except.ok (List.take_append_getElem most)

end Cells

section Turns

variable {count : ℕ} {data bytes : List UInt8} {counter : UInt8}

theorem sizeSub_eq {a b : ℕ} (less : b ≤ a) : sizeSub a b = a - b := if_pos less

/-- A turn that finds enough data fills the buffer. -/
theorem hashTurn_last (fits : count ≤ 2 * maxLimbs) (before : bytes.length ≤ count)
    (enough : count - bytes.length ≤ data.length) :
    hashTurn count data ⟨bytes.length, counter, hashCells bytes⟩ = .ok
      (⟨count, counter, hashCells (bytes ++ data.take (count - bytes.length))⟩, true) := by
  have copied := memcpyHash_cells bytes data (count - bytes.length) (by omega) enough
  have index : bytes.length + (count - bytes.length) = count := by omega
  simp only [hashTurn, sizeSub_eq before, ge_iff_le, enough, decide_true, if_true, copied]
  simp only [bind, Except.bind, index]

/-- A turn that does not copies all of it and writes the counter. -/
theorem hashTurn_next (fits : count ≤ 2 * maxLimbs)
    (short : data.length < count - bytes.length) :
    hashTurn count data ⟨bytes.length, counter, hashCells bytes⟩ = .ok
      (⟨bytes.length + data.length + 1, counter + 1, hashCells (bytes ++ data ++ [counter])⟩,
        bytes.length + data.length + 1 = count) := by
  have before : bytes.length ≤ count := by omega
  have copied := memcpyHash_cells bytes data data.length (by omega) le_rfl
  rw [List.take_length] at copied
  have written := writeHash_cells (bytes ++ data) counter (by rw [List.length_append]; omega)
  rw [List.length_append] at written
  simp only [hashTurn, sizeSub_eq before, ge_iff_le, not_le.mpr short, decide_false]
  simp only [bind, Except.bind, copied, written, Bool.false_eq_true, if_false]

/-- From the start of a block the loop ends with a full buffer, in which the blocks are
followed by the next ones. -/
theorem hashTurns_spec (data : List UInt8) (fits : count ≤ 2 * maxLimbs) (fuel m : ℕ) (enough : count ≤ fuel + m)
    (before : (hashBlocks data m).length < count) :
    ∃ bytes counter, hashTurns count data fuel
        ⟨(hashBlocks data m).length, UInt8.ofNat m, hashCells (hashBlocks data m)⟩ =
          .ok ⟨count, counter, hashCells bytes⟩ ∧
      bytes.length = count ∧ bytes <+: hashBlocks data count ∧
      hashBufLoop count data fuel (hashBlocks data m) (UInt8.ofNat m) = bytes := by
  induction fuel generalizing m with
  | zero =>
    have fewer := le_length_hashBlocks data m
    omega
  | succ fuel ih =>
    have fewer : m < count := (le_length_hashBlocks data m).trans_lt before
    rw [hashTurns, hashBufLoop]
    by_cases last : count - (hashBlocks data m).length ≤ data.length
    · -- the data exhausts the buffer
      rw [hashTurn_last fits before.le last, if_pos last]
      refine ⟨_, _, rfl, ?_, ?_, rfl⟩
      · rw [List.length_append, List.length_take]
        omega
      · apply List.IsPrefix.trans _ (hashBlocks_isPrefix data fewer)
        rw [hashBlocks_succ, List.append_assoc]
        apply (List.prefix_append_right_inj _).mpr
        exact (List.take_prefix _ _).trans (List.prefix_append _ _)
    · have short := not_le.mp last
      have blocks := hashBlocks_succ data m
      have length : (hashBlocks data (m + 1)).length =
          (hashBlocks data m).length + data.length + 1 := by
        rw [blocks, List.length_append, List.length_append, List.length_singleton]
      have next : (UInt8.ofNat m + 1 : UInt8) = UInt8.ofNat (m + 1) := by
        rw [UInt8.ofNat_add]
        rfl
      simp only [hashTurn_next fits short, last, if_false, ← blocks, ← length, next]
      by_cases full : (hashBlocks data (m + 1)).length = count
      · -- the counter byte does
        refine ⟨hashBlocks data (m + 1), UInt8.ofNat (m + 1), ?_, full,
          hashBlocks_isPrefix data fewer, if_pos full⟩
        simp only [bind, Except.bind, full, decide_true, if_true]
      · obtain ⟨bytes, counter, run, filled, start, value⟩ :=
          ih (m + 1) (by omega) (by omega)
        refine ⟨bytes, counter, ?_, filled, start, ?_⟩
        · simp only [bind, Except.bind, full, decide_false, Bool.false_eq_true, if_false]
          exact run
        · rw [if_neg full]
          exact value

/-- The whole loop, from any sufficient fuel. -/
theorem hashTurns_start (data : List UInt8) (fits : count ≤ 2 * maxLimbs) (positive : 0 < count)
    (fuel : ℕ) (enough : count ≤ fuel) :
    ∃ counter, hashTurns count data fuel ⟨0, 0, fun _ => none⟩ =
      .ok ⟨count, counter, hashCells (hashBuf count data)⟩ := by
  have start (fuel : ℕ) (enough : count ≤ fuel) := hashTurns_spec data fits fuel 0 enough
    positive
  obtain ⟨bytes, counter, run, filled, front, -⟩ := start fuel enough
  obtain ⟨bytes', -, -, filled', front', value⟩ := start count le_rfl
  have same : hashBuf count data = bytes := by
    rw [hashBuf]
    apply value.trans
    rw [List.prefix_iff_eq_take.mp front, List.prefix_iff_eq_take.mp front', filled, filled']
  rw [same]
  exact ⟨counter, run⟩

/-- What the loop leaves is as long as the limit and begins the blocks. -/
theorem hashBuf_spec (data : List UInt8) (fits : count ≤ 2 * maxLimbs) (positive : 0 < count) :
    (hashBuf count data).length = count ∧ hashBuf count data <+: hashBlocks data count := by
  obtain ⟨bytes, -, -, filled, front, value⟩ :=
    hashTurns_spec data fits count 0 le_rfl positive
  have same : hashBuf count data = bytes := value
  rw [same]
  exact ⟨filled, front⟩

/-- The halving loop ends with the first shift that is at most the limit. -/
theorem hashShrink_spec (limit fuel z : ℕ) (enough : z < 2 ^ fuel) :
    ∃ k, (∀ more, fuel < more → hashShrink limit more z = .ok (z / 2 ^ k)) ∧
      z / 2 ^ k ≤ limit ∧ (∀ j < k, limit < z / 2 ^ j) ∧
      shrinkLoop limit fuel z = z / 2 ^ k := by
  induction fuel generalizing z with
  | zero =>
    obtain rfl : z = 0 := by simpa using enough
    refine ⟨0, ?_, Nat.zero_le _, by simp, rfl⟩
    intro more enough
    cases more with
    | zero => omega
    | succ more => rfl
  | succ fuel ih =>
    by_cases large : z > limit
    · obtain ⟨k, run, bounded, least, value⟩ := ih (z / 2) (by rw [pow_succ] at enough; omega)
      have shift (j : ℕ) : z / 2 / 2 ^ j = z / 2 ^ (j + 1) := by
        rw [Nat.div_div_eq_div_mul, pow_succ']
      refine ⟨k + 1, ?_, ?_, ?_, ?_⟩
      · intro more enough
        cases more with
        | zero => omega
        | succ more => rw [hashShrink, if_pos large, run more (by omega), shift]
      · rwa [← shift]
      · intro j fewer
        cases j with
        | zero => simpa using large
        | succ j =>
          rw [← shift]
          exact least j (by omega)
      · rw [shrinkLoop, if_pos large, value, shift]
    · refine ⟨0, ?_, by simpa using large, by simp, ?_⟩
      · intro more enough
        cases more with
        | zero => omega
        | succ more => rw [hashShrink, if_neg large, pow_zero, Nat.div_one]
      · rw [shrinkLoop, if_neg large, pow_zero, Nat.div_one]

theorem byteCount_pos (z : ℕ) : 0 < byteCount z := by
  rw [byteCount, mpzSizeinbase2]
  omega

/-- The run ends with the buffer and the integer of the two loops. -/
theorem pbcMpzFromHashAt_run (limit : ℕ) (data : List UInt8)
    (room : byteCount limit ≤ 2 * maxLimbs) :
    Ends (pbcMpzFromHashAt limit data) (hashCells (hashBuf (byteCount limit) data),
      shrinkLoop limit (mpzSizeinbase2 (mpzImport (hashBuf (byteCount limit) data)))
        (mpzImport (hashBuf (byteCount limit) data))) := by
  have positive := byteCount_pos limit
  obtain ⟨length, -⟩ := hashBuf_spec data room positive
  obtain ⟨k, run, -, -, value⟩ := hashShrink_spec limit _ _
    (Nat.lt_log2_self : mpzImport (hashBuf (byteCount limit) data) < _)
  refine ⟨byteCount limit + mpzSizeinbase2 (mpzImport (hashBuf (byteCount limit) data)) + 1, ?_⟩
  intro fuel enough
  obtain ⟨counter, filled⟩ := hashTurns_start data room positive fuel (by omega)
  have read := readHash_cells length.ge
  rw [List.take_of_length_le length.le] at read
  rw [mpzSizeinbase2] at enough ⊢
  have shrunk := run fuel (by omega)
  simp only [pbcMpzFromHashAt, filled, bind, Except.bind, if_true, read, shrunk, value]

/-- For data of any length the loop ends with both exits' index, the assertion holds, no
cell past the limit is written, the cells below hold the blocks' first bytes, and the
integer is their least shift that is at most the limit. -/
theorem pbcMpzFromHashAt_exact (limit : ℕ) (data : List UInt8)
    (room : byteCount limit ≤ 2 * maxLimbs) :
    ∃ bytes z, Ends (pbcMpzFromHashAt limit data) (hashCells bytes, z) ∧
      bytes.length = byteCount limit ∧ bytes <+: hashBlocks data (byteCount limit) ∧
      z ≤ limit ∧ (∃ k, z = mpzImport bytes / 2 ^ k ∧ ∀ j < k, limit < mpzImport bytes / 2 ^ j) ∧
      zpFromHash limit data = some (z : ℤ) := by
  obtain ⟨length, front⟩ := hashBuf_spec data room (byteCount_pos limit)
  obtain ⟨k, -, bounded, least, value⟩ := hashShrink_spec limit _ _
    (Nat.lt_log2_self : mpzImport (hashBuf (byteCount limit) data) < _)
  refine ⟨_, _, pbcMpzFromHashAt_run limit data room, length, front, ?_, ⟨k, value, least⟩, ?_⟩
  · exact value.trans_le bounded
  · rw [zpFromHash, pbcMpzFromHash, if_pos room]
    rfl

/-- Two bytes from one byte of data: a copy, the counter, and six halvings. -/
theorem pbcMpzFromHashAt_exact_thousand :
    byteCount 1000 ≤ 2 * maxLimbs ∧ pbcMpzFromHash 1000 [200] = some 800 ∧
      ∃ bytes z, Ends (pbcMpzFromHashAt 1000 [200]) (hashCells bytes, z) ∧
        bytes.length = byteCount 1000 ∧ z ≤ 1000 := by
  have room : byteCount 1000 ≤ 2 * maxLimbs := by decide
  obtain ⟨bytes, z, ends, length, -, bounded, -⟩ := pbcMpzFromHashAt_exact 1000 [200] room
  exact ⟨room, by decide, bytes, z, ends, length, bounded⟩

/-- A turn at a place of the buffer overruns it, or goes on to a later place. -/
theorem hashTurn_long (data : List UInt8) (long : 2 * maxLimbs < count) {s : HashState}
    (inside : s.i ≤ 2 * maxLimbs) :
    hashTurn count data s = .error .overrun ∨
      ∃ s', hashTurn count data s = .ok (s', false) ∧ s.i < s'.i ∧ s'.i ≤ 2 * maxLimbs := by
  have rest : sizeSub count s.i = count - s.i := sizeSub_eq (by omega)
  by_cases last : count - s.i ≤ data.length
  · left
    have overrun : memcpyHash s.buf s.i data (count - s.i) = .error .overrun :=
      if_neg (by omega)
    simp only [hashTurn, rest, ge_iff_le, last, decide_true, if_true, overrun]
    rfl
  · simp only [hashTurn, rest, ge_iff_le, last, decide_false, Bool.false_eq_true, if_false]
    by_cases copy : s.i + data.length ≤ 2 * maxLimbs
    · by_cases write : s.i + data.length < 2 * maxLimbs
      · right
        simp only [memcpyHash, copy, writeHash, write, bind, Except.bind, le_refl, and_self,
          if_true]
        refine ⟨_, congrArg Except.ok (Prod.ext rfl (decide_eq_false (by omega))), ?_, ?_⟩
        · dsimp only
          omega
        · dsimp only
          omega
      · left
        simp only [memcpyHash, copy, writeHash, write, bind, Except.bind, le_refl, and_self,
          if_true, if_false]
    · left
      simp only [memcpyHash, copy, bind, Except.bind, false_and, if_false]

/-- A limit with more bytes overruns the buffer, whatever the data. -/
theorem hashTurns_long (data : List UInt8) (long : 2 * maxLimbs < count) (s : HashState)
    (fuel : ℕ) (inside : s.i ≤ 2 * maxLimbs) (enough : 2 * maxLimbs < fuel + s.i) :
    hashTurns count data fuel s = .error .overrun := by
  induction fuel generalizing s with
  | zero => omega
  | succ fuel ih =>
    rw [hashTurns]
    rcases hashTurn_long data long inside with overrun | ⟨s', next, more, inside'⟩
    · rw [overrun]
      rfl
    · rw [next]
      exact ih s' inside' (by omega)

end Turns

end Pbc.Arith
