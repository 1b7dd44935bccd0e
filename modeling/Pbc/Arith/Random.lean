import Mathlib.Data.Int.Bitwise
import Mathlib.Tactic.IntervalCases
import Pbc.Gmp.Bytes
import Pbc.Number.Rejection

/-!
# Random numbers

`pbc_mpz_random` copies its limit to the other integer library bit by bit, draws below it there
and copies the result back, whatever the draw reports. The draw gives up after a hundred rounds,
and where the random bytes fail.
-/

namespace Pbc.Arith

open Gmp Number

/-- `RAND_bytes`: as many bytes as asked for, or a failure. -/
structure RandBytes (W : Type) where
  draw : ℕ → W → Option (List UInt8) × W
  length_eq : ∀ {n w bytes w'}, draw n w = (some bytes, w') → bytes.length = n

/-- `BN_num_bits`. -/
def bnNumBits (a : ℕ) : ℕ := if a = 0 then 0 else a.log2 + 1

/-- `BN_is_bit_set`: no bit has a negative number. -/
def bnIsBitSet (a : ℕ) (n : ℤ) : Bool := 0 ≤ n && a.testBit n.toNat

/-- The loop of `empz_from_bn` and `bn_from_mpz`: the bits below `i + 1` are set where they are set
in the source, the highest one first. -/
def copyBits (bit : ℕ → Bool) : ℕ → ℕ → ℕ
  | 0, z => z
  | i + 1, z => copyBits bit i (if bit i then z ||| 1 <<< i else z)

/-- `empz_from_bn`. -/
def empzFromBn (bn : ℕ) : ℕ := copyBits (fun i => bnIsBitSet bn i) (bnNumBits bn) 0

/-- `bn_from_mpz`: a negative limit is read as a two's complement. -/
def bnFromMpz (z : ℤ) : ℕ := copyBits z.testBit (mpzSizeinbase2 z.natAbs) 0

variable {W : Type}

/-- `bnrand` as `bn_rand_range` calls it, with neither top nor bottom bit set: bytes with the high
bits of the first one masked off. `none` is the failure that leaves the number as it was. -/
def bnrand (rand : RandBytes W) (bits : ℕ) (w : W) : Option ℕ × W :=
  if bits = 0 then (some 0, w) else
    let bytes := (bits + 7) / 8
    let bit := (bits - 1) % 8
    let mask : ℕ := 0xff <<< (bit + 1)
    match rand.draw bytes w with
    | (none, w) => (none, w)
    | (some buf, w) =>
      (some (mpzImport (buf.modifyHead fun byte => UInt8.ofNat (byte.toNat &&& (mask ^^^ 0xffffffff)))), w)

/-- The reduction of a draw of one bit more than the range: `BN_sub` twice at most. -/
def subtractTwice (range r : ℕ) : ℕ :=
  if range ≤ r then
    if range ≤ r - range then r - range - range else r - range
  else r

/-- The loops of `bn_rand_range`: a round draws, reduces, and gives up when the count is used up,
even if the number is in range. The number is the last one drawn. -/
def bnRandRangeLoop (rand : RandBytes W) (bits range : ℕ) (reduce : ℕ → ℕ) :
    ℕ → ℕ → W → (ℕ × Bool) × W
  | 0, r, w => ((r, false), w)
  | count + 1, r, w =>
    match bnrand rand bits w with
    | (none, w) => ((r, false), w)
    | (some r, w) =>
      if count = 0 then ((reduce r, false), w)
      else if range ≤ reduce r then bnRandRangeLoop rand bits range reduce count (reduce r) w
      else ((reduce r, true), w)

/-- `bn_rand_range`: the number, and whether a draw succeeded. -/
def bnRandRange (rand : RandBytes W) (r range : ℕ) (w : W) : (ℕ × Bool) × W :=
  let n := bnNumBits range
  if range = 0 then ((r, false), w)
  else if n = 1 then ((0, true), w)
  else if !bnIsBitSet range (n - 2) && !bnIsBitSet range (n - 3) then
    -- the range is `100..`, so three times it is one bit longer
    bnRandRangeLoop rand (n + 1) range (subtractTwice range) 100 r w
  else bnRandRangeLoop rand n range id 100 r w

/-- `pbc_mpz_random`. -/
def pbcMpzRandom (rand : RandBytes W) (limit : ℤ) (w : W) : ℤ × W :=
  let out := bnRandRange rand 0 (bnFromMpz limit) w
  (empzFromBn out.1.1, out.2)

/-- `pbc_mpz_randomb`. -/
def pbcMpzRandomb (rand : RandBytes W) (bits : ℕ) (w : W) : ℤ × W :=
  pbcMpzRandom rand ((0 ||| 1 <<< bits : ℕ) : ℤ) w

section Copies

theorem testBit_copyBits (bit : ℕ → Bool) (n z i : ℕ) :
    (copyBits bit n z).testBit i = (z.testBit i || decide (i < n) && bit i) := by
  induction n generalizing z with
  | zero => simp [copyBits]
  | succ n ih =>
    have single : (if bit n then z ||| 1 <<< n else z).testBit i =
        (z.testBit i || decide (i = n) && bit n) := by
      cases bit n with
      | false => simp
      | true => simp [Nat.one_shiftLeft, Nat.testBit_two_pow, eq_comm]
    rw [copyBits, ih, single]
    rcases lt_trichotomy i n with below | rfl | above
    · simp [below, below.ne, below.trans (Nat.lt_succ_self n)]
    · simp
    · simp [above.ne', Nat.not_lt.2 above.le, Nat.not_lt.2 (Nat.succ_le_of_lt above)]

theorem lt_two_pow_bnNumBits (a : ℕ) : a < 2 ^ bnNumBits a := by
  rw [bnNumBits]
  by_cases zero : a = 0
  · simp [zero]
  · rw [if_neg zero]
    exact Nat.lt_log2_self

/-- The bits of a number come back. -/
theorem copyBits_testBit {a n : ℕ} (wide : a < 2 ^ n) : copyBits a.testBit n 0 = a := by
  refine Nat.eq_of_testBit_eq fun i => ?_
  rw [testBit_copyBits, Nat.zero_testBit, Bool.false_or]
  by_cases inside : i < n
  · simp [inside]
  · have outside : a.testBit i = false :=
      Nat.testBit_lt_two_pow (wide.trans_le (Nat.pow_le_pow_right (by decide) (Nat.le_of_not_lt inside)))
    simp [inside, outside]

@[simp] theorem bnIsBitSet_natCast (a i : ℕ) : bnIsBitSet a i = a.testBit i := by
  simp [bnIsBitSet]

@[simp] theorem empzFromBn_eq (bn : ℕ) : empzFromBn bn = bn := by
  have bits : (fun i : ℕ => bnIsBitSet bn i) = bn.testBit := funext (bnIsBitSet_natCast bn)
  rw [empzFromBn, bits, copyBits_testBit (lt_two_pow_bnNumBits bn)]

@[simp] theorem bnFromMpz_natCast (n : ℕ) : bnFromMpz n = n :=
  copyBits_testBit (a := n) Nat.lt_log2_self

end Copies

section Rounds

variable (rand : RandBytes W)

/-- The numbers that the rounds draw, until the random bytes fail. -/
def bnDraws (bits : ℕ) : ℕ → W → List ℕ
  | 0, _ => []
  | count + 1, w =>
    match bnrand rand bits w with
    | (none, _) => []
    | (some r, w) => r :: bnDraws bits count w

/-- The loop keeps the first number in range: whether it reports success or not. -/
theorem bnRandRangeLoop_eq (bits range : ℕ) (reduce : ℕ → ℕ) (count r : ℕ) (w : W) :
    (bnRandRangeLoop rand bits range reduce count r w).1.1 =
      firstGood (fun r => decide (r < range)) r ((bnDraws rand bits count w).map reduce) := by
  induction count generalizing r w with
  | zero => rfl
  | succ count ih =>
    rw [bnRandRangeLoop, bnDraws]
    rcases bnrand rand bits w with ⟨_ | r', w'⟩
    · rfl
    · rw [List.map_cons, firstGood]
      by_cases last : count = 0
      · subst last
        by_cases inside : reduce r' < range <;> simp [inside, bnDraws, firstGood]
      · by_cases inside : reduce r' < range
        · simp [last, inside, Nat.not_le.2 inside]
        · simp [last, inside, Nat.le_of_not_lt inside, ih]

/-- The number of bits of a draw. -/
def drawBits (range : ℕ) : ℕ :=
  let n := bnNumBits range
  if !bnIsBitSet range (n - 2) && !bnIsBitSet range (n - 3) then n + 1 else n

theorem drawBits_pos {range : ℕ} (two : 2 ≤ range) : 0 < drawBits range := by
  have positive : 0 < bnNumBits range := by
    rw [bnNumBits, if_neg (by omega)]
    exact Nat.succ_pos _
  rw [drawBits]
  split_ifs
  · exact Nat.succ_pos _
  · exact positive

/-- What a draw is reduced to. -/
def reduceDraw (range r : ℕ) : ℕ :=
  let n := bnNumBits range
  if !bnIsBitSet range (n - 2) && !bnIsBitSet range (n - 3) then subtractTwice range r else r

theorem bnNumBits_one_iff {range : ℕ} : bnNumBits range = 1 ↔ range = 1 := by
  constructor
  · intro one
    have above := lt_two_pow_bnNumBits range
    rw [one] at above
    have nonzero : range ≠ 0 := by
      rintro rfl
      cases one
    omega
  · rintro rfl
    decide

/-- From a limit of two on, the result is the first reduced draw below the limit. -/
theorem pbcMpzRandom_eq {limit : ℕ} (two : 2 ≤ limit) (w : W) :
    (pbcMpzRandom rand limit w).1 = firstGood (fun r => decide (r < limit)) 0
      ((bnDraws rand (drawBits limit) 100 w).map (reduceDraw limit)) := by
  have nonzero : limit ≠ 0 := by omega
  have several : bnNumBits limit ≠ 1 := by
    rw [Ne, bnNumBits_one_iff]
    omega
  rw [pbcMpzRandom, bnFromMpz_natCast, bnRandRange]
  simp only [nonzero, several, if_false, empzFromBn_eq]
  by_cases tripled : (!bnIsBitSet limit (bnNumBits limit - 2) &&
      !bnIsBitSet limit (bnNumBits limit - 3)) = true
  · have reduce : reduceDraw limit = subtractTwice limit := by
      funext r
      rw [reduceDraw, if_pos tripled]
    rw [if_pos tripled, drawBits, if_pos tripled, reduce, bnRandRangeLoop_eq]
  · have reduce : reduceDraw limit = id := by
      funext r
      rw [reduceDraw, if_neg tripled, id]
    rw [if_neg tripled, drawBits, if_neg tripled, reduce, bnRandRangeLoop_eq]

/-- How many multiples of the range a draw may take. -/
def drawMultiple (range : ℕ) : ℕ :=
  let n := bnNumBits range
  if !bnIsBitSet range (n - 2) && !bnIsBitSet range (n - 3) then 3 else 1

theorem reduceDraw_of_lt {range r : ℕ} (inside : r < drawMultiple range * range) :
    reduceDraw range r = r % range := by
  rw [drawMultiple] at inside
  rw [reduceDraw]
  by_cases tripled : (!bnIsBitSet range (bnNumBits range - 2) &&
      !bnIsBitSet range (bnNumBits range - 3)) = true
  · simp only [tripled, if_true] at inside ⊢
    rw [subtractTwice]
    split_ifs with once twice
    · rw [Nat.mod_eq_sub_mod once, Nat.mod_eq_sub_mod twice, Nat.mod_eq_of_lt (by omega)]
    · rw [Nat.mod_eq_sub_mod once, Nat.mod_eq_of_lt (by omega)]
    · rw [Nat.mod_eq_of_lt (by omega)]
  · simp only [tripled, Bool.false_eq_true, if_false] at inside ⊢
    rw [Nat.mod_eq_of_lt (by omega)]

theorem reduceDraw_of_le {range r : ℕ} (outside : drawMultiple range * range ≤ r) :
    range ≤ reduceDraw range r := by
  rw [drawMultiple] at outside
  rw [reduceDraw]
  by_cases tripled : (!bnIsBitSet range (bnNumBits range - 2) &&
      !bnIsBitSet range (bnNumBits range - 3)) = true
  · simp only [tripled, if_true] at outside ⊢
    rw [subtractTwice]
    split_ifs <;> omega
  · simp only [tripled, Bool.false_eq_true, if_false] at outside ⊢
    omega

theorem reduceDraw_lt_iff {range r : ℕ} (positive : 0 < range) :
    reduceDraw range r < range ↔ r < drawMultiple range * range := by
  constructor
  · intro inside
    by_contra outside
    exact absurd inside (Nat.not_lt.2 (reduceDraw_of_le (Nat.le_of_not_lt outside)))
  · intro inside
    rw [reduceDraw_of_lt inside]
    exact Nat.mod_lt _ positive

/-- **The limit.** The result is below the limit exactly unless the limit is zero or every draw
before the first failure, or of the hundred, misses: `pbc_mpz_random` ignores the report. -/
theorem pbcMpzRandom_lt_iff (limit : ℕ) (w : W) :
    (pbcMpzRandom rand limit w).1 < limit ↔ limit = 1 ∨ 2 ≤ limit ∧
      (bnDraws rand (drawBits limit) 100 w = [] ∨
        ∃ r ∈ bnDraws rand (drawBits limit) 100 w, r < drawMultiple limit * limit) := by
  rcases Nat.lt_or_ge limit 2 with small | two
  · have single : limit = 0 ∨ limit = 1 := by omega
    rcases single with rfl | rfl
    · refine iff_of_false ?_ (by omega)
      rw [pbcMpzRandom, bnFromMpz_natCast]
      simp [bnRandRange]
    · refine iff_of_true ?_ (.inl rfl)
      rw [pbcMpzRandom, bnFromMpz_natCast]
      simp [bnRandRange, bnNumBits_one_iff.2]
  · have result := firstGood_good (fun r => decide (r < limit)) 0
      ((bnDraws rand (drawBits limit) 100 w).map (reduceDraw limit))
    rw [pbcMpzRandom_eq rand two, Nat.cast_lt, ← decide_eq_true_iff (p := _ < limit), result]
    have positive : 0 < limit := by omega
    have several : limit ≠ 1 := by omega
    simp only [List.mem_map, exists_exists_and_eq_and, decide_eq_true_eq, List.map_eq_nil_iff,
      reduceDraw_lt_iff positive, positive, and_true, several, false_or, two, true_and]
    exact or_comm

end Rounds

section Tape

/-- Random bytes that are read off a tape and fail at its end. -/
def tapeBytes : RandBytes (List UInt8) where
  draw n tape := if tape.length < n then (none, tape) else (some (tape.take n), tape.drop n)
  length_eq {n w bytes w'} := by
    by_cases short : w.length < n
    · simp [short]
    · simp only [short, if_false, Prod.mk.injEq, Option.some.injEq]
      rintro ⟨rfl, -⟩
      exact List.length_take_of_le (Nat.le_of_not_lt short)

/-- The complement of the mask keeps the low bits of a byte. -/
theorem land_complement_mask {bit byte : ℕ} (low : bit < 8) (small : byte < 256) :
    byte &&& ((0xff <<< (bit + 1)) ^^^ 0xffffffff) = byte % 2 ^ (bit + 1) := by
  refine Nat.eq_of_testBit_eq fun i => ?_
  rw [Nat.testBit_land, Nat.testBit_mod_two_pow, Bool.and_comm]
  rcases Nat.lt_or_ge i 8 with inside | outside
  · have kept : ((0xff <<< (bit + 1)) ^^^ 0xffffffff : ℕ).testBit i = decide (i < bit + 1) := by
      interval_cases bit <;> interval_cases i <;> rfl
    rw [kept]
  · have none : byte.testBit i = false :=
      Nat.testBit_lt_two_pow (small.trans_le
        (Nat.pow_le_pow_right (by decide : 0 < 2) outside))
    rw [none, Bool.and_false, Bool.and_false]

/-- A draw is the number in the low bits of a block. -/
theorem mpzImport_masked {bits : ℕ} (positive : 0 < bits) {buf : List UInt8}
    (width : buf.length = (bits + 7) / 8) :
    mpzImport (buf.modifyHead fun byte =>
      UInt8.ofNat (byte.toNat &&& ((0xff <<< ((bits - 1) % 8 + 1)) ^^^ 0xffffffff))) =
      mpzImport buf % 2 ^ bits := by
  cases buf with
  | nil =>
    rw [List.length_nil] at width
    omega
  | cons byte buf =>
    rw [List.length_cons] at width
    set low := (bits - 1) % 8 + 1 with lowEq
    have split : bits = 8 * buf.length + low := by omega
    have power : 2 ^ bits = 256 ^ buf.length * 2 ^ low := by
      rw [split, pow_add, pow_mul]
      norm_num
    have front (byte : UInt8) : mpzImport (byte :: buf) =
        byte.toNat * 256 ^ buf.length + mpzImport buf := by
      rw [← List.singleton_append, mpzImport_append]
      simp [mpzImport]
    have bounded : (bits - 1) % 8 < 8 := by omega
    have small : byte.toNat % 2 ^ low < 256 := (Nat.mod_le _ _).trans_lt byte.toNat_lt
    rw [List.modifyHead_cons, land_complement_mask bounded byte.toNat_lt,
      ← lowEq, front, front, UInt8.toNat_ofNat_of_lt' small, power, Nat.mod_mul,
      Nat.add_comm (byte.toNat * _), Nat.add_mul_mod_self_right, Nat.mod_eq_of_lt (mpzImport_lt buf),
      Nat.add_mul_div_right _ _ (by positivity), Nat.div_eq_of_lt (mpzImport_lt buf), Nat.zero_add]
    ring

/-- The numbers drawn from a tape are the low bits of the blocks at its front. -/
theorem bnDraws_tapeBytes {bits : ℕ} (positive : 0 < bits) (count : ℕ) (tape : List UInt8) :
    bnDraws tapeBytes bits count tape =
      blockValues (fun block => mpzImport block % 2 ^ bits) ((bits + 7) / 8) count tape := by
  induction count generalizing tape with
  | zero => rfl
  | succ count ih =>
    rw [bnDraws, blockValues, bnrand, if_neg positive.ne']
    by_cases short : tape.length < (bits + 7) / 8
    · simp [tapeBytes, short]
    · have width : (tape.take ((bits + 7) / 8)).length = (bits + 7) / 8 :=
        List.length_take_of_le (Nat.le_of_not_lt short)
      simp only [tapeBytes, short, if_false, ← ih]
      rw [mpzImport_masked positive width]

theorem mpzImport_injective {block block' : List UInt8} (width : block.length = block'.length)
    (same : mpzImport block = mpzImport block') : block = block' := by
  induction block using List.reverseRecOn generalizing block' with
  | nil => exact (List.eq_nil_of_length_eq_zero width.symm).symm
  | append_singleton block byte ih =>
    rcases List.eq_nil_or_concat block' with rfl | ⟨block', byte', rfl⟩
    · rw [List.length_append] at width
      cases width
    · rw [List.concat_eq_append, List.length_append, List.length_append] at width
      rw [List.concat_eq_append, mpzImport_append, mpzImport_append] at same
      have single (byte : UInt8) : mpzImport [byte] = byte.toNat := by simp [mpzImport]
      rw [single, single, List.length_singleton, List.length_singleton, pow_one] at same
      have below := byte.toNat_lt
      have below' := byte'.toNat_lt
      have front := ih (Nat.add_right_cancel width) (by omega)
      have last : byte = byte' := UInt8.toNat_inj.1 (by omega)
      rw [List.concat_eq_append, front, last]

/-- The draw that exchanges two residues below the range. -/
def exchangeDraw (range v w d : ℕ) : ℕ :=
  if d < drawMultiple range * range then d / range * range + Equiv.swap v w (d % range) else d

/-- The block whose draw has two residues exchanged. -/
def exchangeBlock (bits range v w : ℕ) (block : List UInt8) : List UInt8 :=
  bigEndian block.length (mpzImport block / 2 ^ bits * 2 ^ bits +
    exchangeDraw range v w (mpzImport block % 2 ^ bits))

/-- The multiples that a draw may take fit in its bits. -/
theorem drawMultiple_le {range : ℕ} (two : 2 ≤ range) :
    drawMultiple range * range ≤ 2 ^ drawBits range := by
  have above := lt_two_pow_bnNumBits range
  rw [drawMultiple, drawBits]
  by_cases tripled : (!bnIsBitSet range (bnNumBits range - 2) &&
      !bnIsBitSet range (bnNumBits range - 3)) = true
  · rw [if_pos tripled, if_pos tripled]
    have below : 2 ^ (bnNumBits range - 1) ≤ range := by
      rw [bnNumBits, if_neg (by omega), Nat.add_sub_cancel]
      exact Nat.log2_self_le (by omega)
    have several : 2 ≤ bnNumBits range := by
      by_contra few
      have : 2 ^ bnNumBits range ≤ 2 ^ 1 := Nat.pow_le_pow_right (by decide) (by omega)
      omega
    obtain ⟨n, width⟩ := Nat.exists_eq_add_of_le' several
    rw [width] at above below tripled ⊢
    rw [Bool.and_eq_true, Bool.not_eq_true', Bool.not_eq_true'] at tripled
    obtain ⟨second, third⟩ := tripled
    have index : ((n + 2 : ℕ) : ℤ) - 2 = n := by omega
    rw [index, bnIsBitSet_natCast] at second
    rw [Nat.add_succ_sub_one] at below
    cases n with
    | zero =>
      rw [Nat.testBit_zero, decide_eq_false_iff_not] at second
      omega
    | succ n =>
      have index : ((n + 1 + 2 : ℕ) : ℤ) - 3 = n := by omega
      rw [index, bnIsBitSet_natCast] at third
      -- the three high bits are `100`
      have second : (range / 2 ^ n).testBit 1 = false := by rwa [Nat.testBit_div_two_pow, Nat.add_comm]
      have third : (range / 2 ^ n).testBit 0 = false := by rwa [Nat.testBit_div_two_pow, Nat.zero_add]
      have lower : 4 ≤ range / 2 ^ n := by
        rw [Nat.le_div_iff_mul_le (by positivity)]
        exact below.trans' (by rw [Nat.add_assoc, pow_add, Nat.mul_comm]; rfl)
      have upper : range / 2 ^ n < 8 := by
        rw [Nat.div_lt_iff_lt_mul (by positivity)]
        exact above.trans_le (by rw [Nat.add_assoc, pow_add, Nat.mul_comm]; rfl)
      have high : range / 2 ^ n = 4 := by
        generalize range / 2 ^ n = h at second third lower upper
        interval_cases h
        · rfl
        · cases third
        · cases second
        · cases second
      have part := Nat.lt_mul_div_succ range (by positivity : 0 < 2 ^ n)
      rw [high] at part
      calc 3 * range ≤ 16 * 2 ^ n := by omega
        _ = 2 ^ (n + 1 + 2 + 1) := by ring
  · rw [if_neg tripled, if_neg tripled]
    omega

section Exchange

variable {range v w : ℕ}

theorem swap_lt (first : v < range) (second : w < range) {r : ℕ} (inside : r < range) :
    Equiv.swap v w r < range := by
  rw [Equiv.swap_apply_def]
  split_ifs <;> assumption

/-- The exchange changes the residue of a draw that is in range, and nothing else. -/
theorem exchangeDraw_spec (first : v < range) (second : w < range) {d : ℕ}
    (inside : d < drawMultiple range * range) :
    exchangeDraw range v w d < drawMultiple range * range ∧
      exchangeDraw range v w d / range = d / range ∧
      exchangeDraw range v w d % range = Equiv.swap v w (d % range) := by
  have positive : 0 < range := by omega
  have residue := swap_lt first second (Nat.mod_lt d positive)
  have quotient : d / range < drawMultiple range := (Nat.div_lt_iff_lt_mul positive).2 inside
  rw [exchangeDraw, if_pos inside]
  refine ⟨?_, ?_, ?_⟩
  · calc d / range * range + Equiv.swap v w (d % range) < d / range * range + range := by omega
      _ = (d / range + 1) * range := by ring
      _ ≤ drawMultiple range * range := Nat.mul_le_mul_right _ quotient
  · rw [Nat.add_comm, Nat.add_mul_div_right _ _ positive, Nat.div_eq_of_lt residue, Nat.zero_add]
  · rw [Nat.add_comm, Nat.add_mul_mod_self_right, Nat.mod_eq_of_lt residue]

theorem exchangeDraw_exchangeDraw (first : v < range) (second : w < range) (d : ℕ) :
    exchangeDraw range v w (exchangeDraw range v w d) = d := by
  by_cases inside : d < drawMultiple range * range
  · obtain ⟨inside', quotient, residue⟩ := exchangeDraw_spec first second inside
    rw [exchangeDraw, if_pos inside', quotient, residue, Equiv.swap_apply_self, Nat.mul_comm]
    exact Nat.div_add_mod d range
  · rw [exchangeDraw, exchangeDraw, if_neg inside, if_neg inside]

theorem reduceDraw_exchangeDraw (first : v < range) (second : w < range) (d : ℕ) :
    reduceDraw range (exchangeDraw range v w d) = Equiv.swap v w (reduceDraw range d) := by
  by_cases inside : d < drawMultiple range * range
  · obtain ⟨inside', -, residue⟩ := exchangeDraw_spec first second inside
    rw [reduceDraw_of_lt inside', residue, reduceDraw_of_lt inside]
  · have large := reduceDraw_of_le (Nat.le_of_not_lt inside)
    rw [exchangeDraw, if_neg inside, Equiv.swap_apply_of_ne_of_ne (by omega) (by omega)]

theorem exchangeDraw_lt (two : 2 ≤ range) (first : v < range) (second : w < range) {d : ℕ}
    (fits : d < 2 ^ drawBits range) : exchangeDraw range v w d < 2 ^ drawBits range := by
  by_cases inside : d < drawMultiple range * range
  · exact (exchangeDraw_spec first second inside).1.trans_le (drawMultiple_le two)
  · rwa [exchangeDraw, if_neg inside]

/-- A block of a draw imports as its masked bits and the number that is drawn. -/
theorem mpzImport_exchangeBlock (two : 2 ≤ range) (first : v < range) (second : w < range)
    {block : List UInt8} (width : block.length = (drawBits range + 7) / 8) :
    mpzImport (exchangeBlock (drawBits range) range v w block) =
      mpzImport block / 2 ^ drawBits range * 2 ^ drawBits range +
        exchangeDraw range v w (mpzImport block % 2 ^ drawBits range) := by
  set bits := drawBits range
  have drawn : exchangeDraw range v w (mpzImport block % 2 ^ bits) < 2 ^ bits :=
    exchangeDraw_lt two first second (Nat.mod_lt _ (by positivity))
  have split : 256 ^ block.length = 2 ^ (8 * block.length - bits) * 2 ^ bits := by
    rw [← pow_add, Nat.sub_add_cancel (by omega), pow_mul]
    norm_num
  have quotient : mpzImport block / 2 ^ bits < 2 ^ (8 * block.length - bits) := by
    rw [Nat.div_lt_iff_lt_mul (by positivity), ← split]
    exact mpzImport_lt block
  rw [exchangeBlock, mpzImport_bigEndian, Nat.mod_eq_of_lt]
  calc mpzImport block / 2 ^ bits * 2 ^ bits + exchangeDraw range v w (mpzImport block % 2 ^ bits)
      < mpzImport block / 2 ^ bits * 2 ^ bits + 2 ^ bits := by omega
    _ = (mpzImport block / 2 ^ bits + 1) * 2 ^ bits := by ring
    _ ≤ 256 ^ block.length := by
        rw [split]
        exact Nat.mul_le_mul_right _ quotient

@[simp] theorem length_exchangeBlock (bits range v w : ℕ) (block : List UInt8) :
    (exchangeBlock bits range v w block).length = block.length :=
  length_bigEndian _ _

theorem exchangeBlock_mod (two : 2 ≤ range) (first : v < range) (second : w < range)
    {block : List UInt8} (width : block.length = (drawBits range + 7) / 8) :
    mpzImport (exchangeBlock (drawBits range) range v w block) % 2 ^ drawBits range =
      exchangeDraw range v w (mpzImport block % 2 ^ drawBits range) := by
  rw [mpzImport_exchangeBlock two first second width, Nat.add_comm, Nat.add_mul_mod_self_right]
  exact Nat.mod_eq_of_lt (exchangeDraw_lt two first second (Nat.mod_lt _ (by positivity)))

theorem exchangeBlock_exchangeBlock (two : 2 ≤ range) (first : v < range) (second : w < range)
    {block : List UInt8} (width : block.length = (drawBits range + 7) / 8) :
    exchangeBlock (drawBits range) range v w (exchangeBlock (drawBits range) range v w block) =
      block := by
  have width' := (length_exchangeBlock (drawBits range) range v w block).trans width
  refine mpzImport_injective (by rw [length_exchangeBlock, length_exchangeBlock]) ?_
  have drawn := exchangeDraw_lt two first second
    (Nat.mod_lt (mpzImport block) (by positivity : 0 < 2 ^ drawBits range))
  rw [mpzImport_exchangeBlock two first second width', exchangeBlock_mod two first second width,
    mpzImport_exchangeBlock two first second width, exchangeDraw_exchangeDraw first second,
    Nat.add_comm _ (exchangeDraw _ _ _ _), Nat.add_mul_div_right _ _ (by positivity),
    Nat.div_eq_of_lt drawn, Nat.zero_add, Nat.mul_comm]
  exact Nat.div_add_mod _ _

end Exchange

/-- **Uniformity.** Every number below the limit is the result for equally many tapes, as soon as
the tapes hold the bytes of one draw. -/
theorem pbcMpzRandom_uniform {limit v w length : ℕ} (first : v < limit) (second : w < limit)
    (long : (drawBits limit + 7) / 8 ≤ length) :
    Nat.card {tape : List UInt8 // tape.length = length ∧ (pbcMpzRandom tapeBytes limit tape).1 = v} =
      Nat.card
        {tape : List UInt8 // tape.length = length ∧ (pbcMpzRandom tapeBytes limit tape).1 = w} := by
  rcases Nat.lt_or_ge limit 2 with small | two
  · have same : v = w := by omega
    rw [same]
  · have bits := drawBits_pos two
    have values (tape : List UInt8) : blockValues (fun block =>
          reduceDraw limit (mpzImport block % 2 ^ drawBits limit)) ((drawBits limit + 7) / 8) 100 tape =
        (bnDraws tapeBytes (drawBits limit) 100 tape).map (reduceDraw limit) := by
      rw [bnDraws_tapeBytes bits]
      exact blockValues_comp _ _ _ _ _
    have accepted : decide (v < limit) = true := decide_eq_true first
    have accepted' : decide (w < limit) = true := decide_eq_true second
    have swaps (block : List UInt8) (width : block.length = (drawBits limit + 7) / 8) :
        reduceDraw limit (mpzImport (exchangeBlock (drawBits limit) limit v w block) % 2 ^ drawBits limit) =
          Equiv.swap v w (reduceDraw limit (mpzImport block % 2 ^ drawBits limit)) := by
      rw [exchangeBlock_mod two first second width, reduceDraw_exchangeDraw first second]
    have exchanged := @card_firstGood_eq _ _ (exchangeBlock (drawBits limit) limit v w) _ _
      (fun block => reduceDraw limit (mpzImport block % 2 ^ drawBits limit))
      (fun r => decide (r < limit)) v w accepted accepted' (length_exchangeBlock _ _ _ _)
      (fun block width => exchangeBlock_exchangeBlock two first second width) swaps
      100 (by decide) 0 _ long
    simp only [values] at exchanged
    simp only [pbcMpzRandom_eq tapeBytes two, Nat.cast_inj]
    exact exchanged

/-- Draws of three bits below five, from tapes of two bytes. -/
theorem pbcMpzRandom_uniform_five :
    Nat.card {tape : List UInt8 // tape.length = 2 ∧
        (pbcMpzRandom tapeBytes (5 : ℕ) tape).1 = (0 : ℕ)} =
      Nat.card {tape : List UInt8 // tape.length = 2 ∧
        (pbcMpzRandom tapeBytes (5 : ℕ) tape).1 = (4 : ℕ)} :=
  pbcMpzRandom_uniform (by decide) (by decide) (by decide)

/-- `pbc_mpz_randomb` draws below a power of two. -/
theorem pbcMpzRandomb_eq (rand : RandBytes W) (bits : ℕ) (w : W) :
    pbcMpzRandomb rand bits w = pbcMpzRandom rand ((2 ^ bits : ℕ) : ℤ) w := by
  rw [pbcMpzRandomb, Nat.zero_or, Nat.one_shiftLeft]

end Tape

section Powers

/-- A draw takes no more bits than it is asked for. -/
theorem bnDraws_lt (rand : RandBytes W) {bits : ℕ} (positive : 0 < bits) (count : ℕ) (w : W) :
    ∀ d ∈ bnDraws rand bits count w, d < 2 ^ bits := by
  induction count generalizing w with
  | zero => exact fun d member => absurd member List.not_mem_nil
  | succ count ih =>
    rw [bnDraws, bnrand, if_neg positive.ne']
    simp only
    rcases drawn : rand.draw ((bits + 7) / 8) w with ⟨_ | buf, w'⟩
    · exact fun d member => absurd member List.not_mem_nil
    · simp only [mpzImport_masked positive (rand.length_eq drawn)]
      exact List.forall_mem_cons.2 ⟨Nat.mod_lt _ (by positivity), ih w'⟩

/-- A power of two is drawn with two bits more than its exponent, and three times over. -/
theorem bnNumBits_two_pow (b : ℕ) : bnNumBits (2 ^ b) = b + 1 := by
  rw [bnNumBits, if_neg (by positivity), Nat.log2_two_pow]

theorem tripled_two_pow {b : ℕ} (positive : 0 < b) :
    (!bnIsBitSet (2 ^ b) (bnNumBits (2 ^ b) - 2) && !bnIsBitSet (2 ^ b) (bnNumBits (2 ^ b) - 3)) =
      true := by
  have other {i : ℤ} (apart : i ≠ b) : bnIsBitSet (2 ^ b) i = false := by
    rw [bnIsBitSet, Nat.testBit_two_pow, Bool.and_eq_false_iff, decide_eq_false_iff_not,
      decide_eq_false_iff_not]
    omega
  rw [bnNumBits_two_pow, other (by omega), other (by omega)]
  rfl

theorem drawBits_two_pow {b : ℕ} (positive : 0 < b) : drawBits (2 ^ b) = b + 2 := by
  rw [drawBits, if_pos (tripled_two_pow positive), bnNumBits_two_pow]

theorem reduceDraw_two_pow {b : ℕ} (positive : 0 < b) : reduceDraw (2 ^ b) = subtractTwice (2 ^ b) := by
  funext r
  rw [reduceDraw, if_pos (tripled_two_pow positive)]

/-- Below a power of two the result takes at most one bit too many, even when every draw misses. -/
theorem pbcMpzRandom_two_pow_lt (rand : RandBytes W) {b : ℕ} (positive : 0 < b) (w : W) :
    ∃ k < 2 ^ (b + 1), (pbcMpzRandom rand ((2 ^ b : ℕ) : ℤ) w).1 = (k : ℕ) := by
  refine ⟨_, ?_, pbcMpzRandom_eq rand (Nat.le_self_pow positive.ne' 2) w⟩
  have member := firstGood_mem (fun r => decide (r < 2 ^ b)) 0
    ((bnDraws rand (drawBits (2 ^ b)) 100 w).map (reduceDraw (2 ^ b)))
  rcases List.mem_cons.1 member with zero | drawn
  · rw [zero]
    positivity
  · obtain ⟨d, drawn, reduced⟩ := List.mem_map.1 drawn
    rw [drawBits_two_pow positive] at drawn
    have bounded := bnDraws_lt rand (by omega) 100 w d drawn
    rw [← reduced, reduceDraw_two_pow positive, subtractTwice]
    rw [pow_add] at bounded ⊢
    split_ifs <;> omega

/-- Random bytes that are the same in every round. -/
def constantBytes (W : Type) (block : List UInt8) : RandBytes W where
  draw n w := if block.length = n then (some block, w) else (none, w)
  length_eq {n w bytes w'} := by
    by_cases width : block.length = n
    · simp only [width, if_true, Prod.mk.injEq, Option.some.injEq]
      rintro ⟨rfl, -⟩
      exact width
    · simp [width]

theorem bnDraws_constantBytes {bits : ℕ} (positive : 0 < bits) {block : List UInt8}
    (width : block.length = (bits + 7) / 8) (count : ℕ) (w : W) :
    bnDraws (constantBytes W block) bits count w =
      List.replicate count (mpzImport block % 2 ^ bits) := by
  induction count with
  | zero => rfl
  | succ count ih =>
    rw [bnDraws, bnrand, if_neg positive.ne', List.replicate_succ, ← ih]
    simp only [constantBytes, width, if_true]
    rw [mpzImport_masked positive width]

/-- Every such number is the result for some random bytes. -/
theorem pbcMpzRandom_two_pow_reaches {b k : ℕ} (positive : 0 < b) (small : k < 2 ^ (b + 1)) :
    ∃ block, ∀ w : W,
      (pbcMpzRandom (constantBytes W block) ((2 ^ b : ℕ) : ℤ) w).1 = (k : ℕ) := by
  -- a number past the limit comes from a hundred draws that all miss
  obtain ⟨d, fits, reduced⟩ : ∃ d < 2 ^ (b + 2), subtractTwice (2 ^ b) d = k := by
    rw [pow_add] at small ⊢
    by_cases inside : k < 2 ^ b
    · refine ⟨k, by omega, ?_⟩
      rw [subtractTwice, if_neg (Nat.not_le.2 inside)]
    · refine ⟨k + 2 * 2 ^ b, by omega, ?_⟩
      rw [subtractTwice, if_pos (by omega), if_pos (by omega)]
      omega
  have width : (bigEndian ((b + 2 + 7) / 8) d).length = (b + 2 + 7) / 8 := length_bigEndian _ _
  have value : mpzImport (bigEndian ((b + 2 + 7) / 8) d) % 2 ^ (b + 2) = d := by
    have wide : 2 ^ (b + 2) ≤ 256 ^ ((b + 2 + 7) / 8) := by
      rw [show (256 : ℕ) = 2 ^ 8 from rfl, ← pow_mul]
      exact Nat.pow_le_pow_right (by decide) (by omega)
    rw [mpzImport_bigEndian, Nat.mod_eq_of_lt (fits.trans_le wide), Nat.mod_eq_of_lt fits]
  refine ⟨bigEndian ((b + 2 + 7) / 8) d, fun w => ?_⟩
  rw [pbcMpzRandom_eq _ (Nat.le_self_pow positive.ne' 2), drawBits_two_pow positive,
    bnDraws_constantBytes (by omega) width, List.map_replicate,
    firstGood_replicate _ _ _ (by decide), value, reduceDraw_two_pow positive, reduced]

end Powers

end Pbc.Arith
