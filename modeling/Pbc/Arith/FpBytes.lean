import Pbc.Arith.FpPow

/-!
# Bytes of the implementations of `F_p`

`element_to_bytes` and `element_from_bytes` of every implementation and of the extensions
built over them. Every implementation writes the residue itself, big-endian in the bytes
of the modulus, so that an element written by one is read by another.
-/

open Pbc.Gmp

namespace Pbc.Arith

/-- The byte methods of a structure. `toBytes` gives the bytes written and their number,
and fails where an array overflows; `fromBytes` gets what the destination holds and the
memory from `data` on, and gives the number of bytes read. -/
structure ByteMethods (O : Type) where
  fixedLength : ℕ
  toBytes : O → Option (List UInt8 × ℕ)
  fromBytes : O → List UInt8 → O × ℕ

section Operations

/-- The loop of `field_init_tiny_fp` that counts the bytes of the modulus. -/
def tinyLengthLoop (f : TinyField) : ℕ → ℕ → ℕ → ℕ
  | 0, _, length => length
  | fuel + 1, l, length =>
      if l < f.order then tinyLengthLoop f fuel ((256 * l + 255) % f.word) (length + 1) else length

/-- `fixed_length_in_bytes` of the tiny implementation. -/
def tinyFixedLength (f : TinyField) : ℕ := tinyLengthLoop f f.longBytes 255 1

/-- `fp_to_bytes` of the tiny implementation, which writes from the end. -/
def tinyToBytesLoop : ℕ → ℕ → List UInt8 → List UInt8
  | 0, _, data => data
  | n + 1, l, data => tinyToBytesLoop n (l / 256) (UInt8.ofNat (l % 256) :: data)

/-- `fp_from_bytes` of the tiny implementation. -/
def tinyFromBytesLoop (f : TinyField) (data : List UInt8) : ℕ :=
  data.foldl (fun p byte => (p * 256 % f.word + byte.toNat) % f.word) 0

/-- The naive implementation. -/
def zpBytes (p : ℕ) : ByteMethods ℤ where
  fixedLength := fixedLengthInBytes p
  toBytes := zpToBytes p
  fromBytes _ data := zpFromBytes p data

/-- The tiny implementation. -/
def tinyBytes (f : TinyField) : ByteMethods ℕ where
  fixedLength := tinyFixedLength f
  toBytes e := some (tinyToBytesLoop (tinyFixedLength f) e [], tinyFixedLength f)
  fromBytes _ data :=
    (tinyFromBytesLoop f (data.take (tinyFixedLength f)), tinyFixedLength f)

/-- `pbc_mpz_out_raw_n` of an integer, over the length of the field. -/
def mpzToBytes (p z : ℕ) : Option (List UInt8 × ℕ) :=
  (pbcMpzOutRawN (fixedLengthInBytes p) z).map fun data => (data, fixedLengthInBytes p)

/-- The fast implementation. -/
def fastBytes (f : LimbField) : ByteMethods ℕ where
  fixedLength := fixedLengthInBytes f.order
  toBytes e := mpzToBytes f.order e
  fromBytes _ data :=
    (fastSetMpz f (mpzImport (data.take (fixedLengthInBytes f.order))), fixedLengthInBytes f.order)

/-- The flagged implementations. Montgomery's reads the element into an array. -/
def LimbImpl.bytes (f : LimbField) (impl : LimbImpl) : ByteMethods DataS where
  fixedLength := fixedLengthInBytes f.order
  toBytes a :=
    match impl with
    | faster =>
        if !a.flag then
          some (List.replicate (fixedLengthInBytes f.order) 0, fixedLengthInBytes f.order)
        else mpzToBytes f.order (fasterToMpz a)
    | mont => do
        f.arrays a.flag
        mpzToBytes f.order (← montToMpz f a)
  fromBytes a data := ((impl.methods f).fromBytes a data, fixedLengthInBytes f.order)

/-- The byte methods of a field. -/
def FpField.bytes : (k : FpField) → ByteMethods k.Object
  | naive p => zpBytes p
  | tiny f => tinyBytes f
  | fast f => fastBytes f
  | flagged impl f => impl.bytes f

variable {O : Type}

/-- `fq_to_bytes` and `fq_from_bytes`. -/
def fqBytes (m : ByteMethods O) : ByteMethods (O × O) where
  fixedLength := 2 * m.fixedLength
  toBytes e := do
    let (x, len) ← m.toBytes e.1
    let (y, len') ← m.toBytes e.2
    return (x ++ y, len + len')
  fromBytes e data :=
    let (x, len) := m.fromBytes e.1 data
    let (y, len') := m.fromBytes e.2 (data.drop len)
    ((x, y), len + len')

/-- The loop of `polymod_to_bytes`. -/
def polymodToBytesLoop (m : ByteMethods O) : {n : ℕ} → (Fin n → O) → Option (List UInt8 × ℕ)
  | 0, _ => some ([], 0)
  | _ + 1, coeff => do
      let (x, len) ← m.toBytes (coeff 0)
      let (y, len') ← polymodToBytesLoop m (Fin.tail coeff)
      return (x ++ y, len + len')

/-- The loop of `polymod_from_bytes`. -/
def polymodFromBytesLoop (m : ByteMethods O) : {n : ℕ} → (Fin n → O) → List UInt8 → (Fin n → O) × ℕ
  | 0, coeff, _ => (coeff, 0)
  | _ + 1, coeff, data =>
      let (x, len) := m.fromBytes (coeff 0) data
      let (y, len') := polymodFromBytesLoop m (Fin.tail coeff) (data.drop len)
      (Fin.cons x y, len + len')

/-- `polymod_to_bytes` and `polymod_from_bytes`. -/
def polymodBytes (n : ℕ) (m : ByteMethods O) : ByteMethods (Fin n → O) where
  fixedLength := m.fixedLength * n
  toBytes := polymodToBytesLoop m
  fromBytes := polymodFromBytesLoop m

/-- The extensions built over a field by `field_init_quadratic` (or `field_init_fi`) and
`field_init_polymod`. -/
inductive Extension where
  | base
  | quadratic (t : Extension)
  | polymod (n : ℕ) (t : Extension)

/-- What an element of an extension holds, from what the elements of the field hold. -/
def Extension.Object (O : Type) : Extension → Type
  | base => O
  | quadratic t => t.Object O × t.Object O
  | polymod n t => Fin n → t.Object O

/-- The byte methods of an extension. -/
def Extension.bytes (m : ByteMethods O) : (t : Extension) → ByteMethods (t.Object O)
  | base => m
  | quadratic t => fqBytes (t.bytes m)
  | polymod n t => polymodBytes n (t.bytes m)

end Operations

/-- A relation of all coordinates to those of another element. -/
def Extension.Coordinates {O R : Type} (holds : O → R → Prop) :
    (t : Extension) → t.Object O → t.Object R → Prop
  | base, e, x => holds e x
  | quadratic t, e, x => t.Coordinates holds e.1 x.1 ∧ t.Coordinates holds e.2 x.2
  | polymod _ t, e, x => ∀ i, t.Coordinates holds (e i) (x i)

/-- A condition on all coordinates. -/
def Extension.All {R : Type} (holds : R → Prop) : (t : Extension) → t.Object R → Prop
  | base, x => holds x
  | quadratic t, x => t.All holds x.1 ∧ t.All holds x.2
  | polymod _ t, x => ∀ i, t.All holds (x i)

/-- An element in reduced form holds a residue, an integer below the order. -/
def FpField.Carries : (k : FpField) → k.Object → ℕ → Prop
  | naive p, a, r => r < p ∧ a = (r : ℤ)
  | tiny f, a, r => r < f.order ∧ a = r
  | fast f, a, r => r < f.order ∧ a = r
  | flagged impl f, a, r => r < f.order ∧ impl.Holds f a (r : ZMod f.order)

/-- The array into which Montgomery's implementation reads a nonzero residue holds it. -/
def FpField.Writes : FpField → ℕ → Prop
  | flagged .mont f, r => r ≠ 0 → f.limbs ≤ maxLimbs
  | _, _ => True

/-- The limb `negpinv` of Montgomery's implementation is what its comment says, and the
modulus is one that the implementation takes. -/
def FpField.Built : FpField → Prop
  | flagged impl f => impl.Accepts f ∧ impl.Constant f
  | _ => True

/-- What one element writes, another reads from the start of any memory, whatever it held
before: as the same value, with the same number of bytes, the fixed length of both. -/
def Interchanges {O O' R : Type} (m : ByteMethods O) (m' : ByteMethods O') (holds : O' → R → Prop)
    (e : O) (x : R) : Prop :=
  m.fixedLength = m'.fixedLength ∧ ∃ data, m.toBytes e = some (data, m.fixedLength) ∧
    data.length = m.fixedLength ∧ ∀ c rest, holds (m'.fromBytes c (data ++ rest)).1 x ∧
      (m'.fromBytes c (data ++ rest)).2 = m'.fixedLength

section Values

section Tiny

variable {f : TinyField}

/-- The bytes of the modulus are at most those of the word. -/
private theorem byteCount_le_longBytes : byteCount f.order ≤ f.longBytes :=
  (byteCount_le_iff f.order_pos.ne').mpr f.fits

/-- The loop stops at the first all-ones number that is not below the modulus. -/
private theorem tinyLengthLoop_eq (fuel length : ℕ) (short : length ≤ byteCount f.order)
    (enough : f.longBytes < length + fuel) :
    tinyLengthLoop f fuel (256 ^ length - 1) length = byteCount f.order := by
  have word := byteCount_le_longBytes (f := f)
  induction fuel generalizing length with
  | zero => omega
  | succ fuel ih =>
    have positive : 0 < 256 ^ length := by positivity
    rw [tinyLengthLoop]
    split
    · next below =>
      have longer : length + 1 ≤ byteCount f.order := by
        by_contra fits
        have small := (byteCount_le_iff f.order_pos.ne').mp (by omega : byteCount f.order ≤ length)
        omega
      have bound : 256 ^ (length + 1) ≤ f.word :=
        Nat.pow_le_pow_right (by decide) (longer.trans word)
      have next : (256 * (256 ^ length - 1) + 255) % f.word = 256 ^ (length + 1) - 1 := by
        rw [pow_succ'] at bound ⊢
        rw [Nat.mod_eq_of_lt (by omega)]
        omega
      rw [next]
      exact ih (length + 1) longer (by omega)
    · next stop =>
      have fits := (byteCount_le_iff f.order_pos.ne').mpr (by omega : f.order < 256 ^ length)
      omega

/-- The tiny implementation counts the bytes of the modulus as the others do. -/
theorem tinyFixedLength_eq (f : TinyField) : tinyFixedLength f = fixedLengthInBytes f.order := by
  have some : 0 < byteCount f.order := by
    by_contra none
    have zero := (byteCount_le_iff f.order_pos.ne').mp (by omega : byteCount f.order ≤ 0)
    exact absurd f.order_pos (by omega)
  exact tinyLengthLoop_eq f.longBytes 1 some (by omega)

theorem tinyToBytesLoop_eq (n l : ℕ) (data : List UInt8) :
    tinyToBytesLoop n l data = bigEndian n l ++ data := by
  induction n generalizing l data with
  | zero => rfl
  | succ n ih => rw [tinyToBytesLoop, ih, bigEndian, List.append_assoc, List.singleton_append]

/-- As many bytes as the word has are read without loss. -/
theorem tinyFromBytesLoop_eq {data : List UInt8} (short : data.length ≤ f.longBytes) :
    tinyFromBytesLoop f data = mpzImport data := by
  induction data using List.reverseRecOn with
  | nil => rfl
  | append_singleton data byte ih =>
    rw [List.length_append, List.length_singleton] at short
    have before : tinyFromBytesLoop f data = mpzImport data := ih (by omega)
    have bound := mpzImport_lt (data ++ [byte])
    have room : 256 ^ (data ++ [byte]).length ≤ f.word :=
      Nat.pow_le_pow_right (by decide) (by rwa [List.length_append, List.length_singleton])
    have last : mpzImport [byte] = byte.toNat := by simp [mpzImport]
    rw [mpzImport_append, List.length_singleton, pow_one, last] at bound ⊢
    have step : tinyFromBytesLoop f (data ++ [byte]) =
        (tinyFromBytesLoop f data * 256 % f.word + byte.toNat) % f.word := by
      rw [tinyFromBytesLoop, List.foldl_append]
      rfl
    rw [step, before]
    have shifted : mpzImport data * 256 % f.word = mpzImport data * 256 :=
      Nat.mod_eq_of_lt ((Nat.le_add_right _ _).trans_lt (bound.trans_le room))
    rw [shifted, Nat.mod_eq_of_lt (bound.trans_le room)]

theorem tinyToBytes_eq {r : ℕ} (reduced : r < f.order) :
    ∃ data, (tinyBytes f).toBytes r = some (data, fixedLengthInBytes f.order) ∧
      data.length = fixedLengthInBytes f.order ∧ mpzImport data = r := by
  refine ⟨bigEndian (fixedLengthInBytes f.order) r, ?_, length_bigEndian _ _, ?_⟩
  · simp only [tinyBytes, tinyToBytesLoop_eq, List.append_nil, tinyFixedLength_eq]
  · rw [mpzImport_bigEndian]
    exact Nat.mod_eq_of_lt (reduced.trans (lt_pow_byteCount _))

end Tiny

/-- An integer below the modulus is written in the bytes of the modulus. -/
theorem mpzToBytes_eq {p r : ℕ} (reduced : r < p) :
    ∃ data, mpzToBytes p r = some (data, fixedLengthInBytes p) ∧
      data.length = fixedLengthInBytes p ∧ mpzImport data = r := by
  obtain ⟨data, run, length, value⟩ := (pbcMpzOutRawN_eq (fixedLengthInBytes p) r).1
    (reduced.trans (lt_pow_byteCount p))
  exact ⟨data, by rw [mpzToBytes, run]; rfl, length, value⟩

section Flagged

variable {impl : LimbImpl} {f : LimbField} {a : DataS} {r : ℕ}

/-- The flag is clear exactly for the residue zero. -/
private theorem flag_iff_zero (reduced : r < f.order) (accepts : impl.Accepts f)
    (holds : impl.Holds f a r) : a.flag = false ↔ r = 0 := by
  rw [LimbImpl.flag_iff accepts holds]
  constructor
  · intro zero
    by_contra nonzero
    exact natCast_ne_zero (Nat.pos_of_ne_zero nonzero) reduced zero
  · rintro rfl
    exact Nat.cast_zero

theorem LimbImpl.toBytes_eq (reduced : r < f.order) (accepts : impl.Accepts f)
    (constant : impl.Constant f) (holds : impl.Holds f a r)
    (room : impl = .mont → r ≠ 0 → f.limbs ≤ maxLimbs) :
    ∃ data, (impl.bytes f).toBytes a = some (data, fixedLengthInBytes f.order) ∧
      data.length = fixedLengthInBytes f.order ∧ mpzImport data = r := by
  have zero := flag_iff_zero reduced accepts holds
  obtain ⟨data, run, length, value⟩ := mpzToBytes_eq reduced
  cases impl with
  | faster =>
    cases flag : a.flag with
    | false =>
      refine ⟨List.replicate (fixedLengthInBytes f.order) 0, ?_, List.length_replicate, ?_⟩
      · simp [LimbImpl.bytes, flag]
      · rw [mpzImport_replicate_zero, zero.mp flag]
    | true =>
      obtain ⟨-, small, same⟩ := (DataS.holds_set flag).mp holds
      have limbs : fasterToMpz a = r := by
        rw [fasterToMpz, if_neg (by rw [flag]; decide), ← natCast_eq_iff small reduced, same]
      exact ⟨data, by simp [LimbImpl.bytes, flag, limbs, run], length, value⟩
  | mont =>
    obtain ⟨z, read, small, same⟩ := montToMpz_spec accepts constant holds
    obtain rfl := (natCast_eq_iff small reduced).mp same
    have fits : f.arrays a.flag = some () := by
      refine f.arrays_of_fits fun flag => room rfl fun none => ?_
      rw [zero.mpr none] at flag
      exact Bool.false_ne_true flag
    exact ⟨data, by simp [LimbImpl.bytes, fits, read, run], length, value⟩

/-- A nonzero residue of too many limbs overruns the array. -/
theorem LimbImpl.toBytes_overrun (reduced : r < f.order) (accepts : impl.Accepts f)
    (holds : impl.Holds f a r) (mont : impl = .mont) (nonzero : r ≠ 0) (large : maxLimbs < f.limbs) :
    (impl.bytes f).toBytes a = none := by
  have flag : a.flag = true := by
    rw [← Bool.not_eq_false, flag_iff_zero reduced accepts holds]
    exact nonzero
  subst mont
  simp [LimbImpl.bytes, FpFieldData.arrays, flag, large]

end Flagged

namespace FpField

theorem bytes_fixedLength (k : FpField) : k.bytes.fixedLength = fixedLengthInBytes k.order := by
  cases k with
  | naive p => rfl
  | tiny f => exact tinyFixedLength_eq f
  | fast f => rfl
  | flagged impl f => rfl

variable {k : FpField}

theorem Carries.lt {a : k.Object} {r : ℕ} (carries : k.Carries a r) : r < k.order := by
  cases k <;> exact carries.1

/-- What an element writes is the residue that it holds. -/
theorem toBytes_eq (built : k.Built) {a : k.Object} {r : ℕ} (carries : k.Carries a r)
    (writes : k.Writes r) : ∃ data, k.bytes.toBytes a = some (data, k.bytes.fixedLength) ∧
      data.length = k.bytes.fixedLength ∧ mpzImport data = r := by
  rw [bytes_fixedLength]
  cases k with
  | naive p =>
    obtain ⟨reduced, rfl⟩ := carries
    exact (zpToBytes_eq p r).1 (reduced.trans (lt_pow_byteCount p))
  | tiny f =>
    obtain ⟨reduced, rfl⟩ := carries
    exact tinyToBytes_eq reduced
  | fast f =>
    obtain ⟨reduced, rfl⟩ := carries
    exact mpzToBytes_eq reduced
  | flagged impl f =>
    obtain ⟨reduced, holds⟩ := carries
    refine LimbImpl.toBytes_eq reduced built.1 built.2 holds ?_
    rintro rfl
    exact writes

/-- What is written fails only where the array overflows. -/
theorem writes_of_toBytes (built : k.Built) {a : k.Object} {r : ℕ} (carries : k.Carries a r)
    {written : List UInt8 × ℕ} (run : k.bytes.toBytes a = some written) : k.Writes r := by
  cases k with
  | naive p => trivial
  | tiny f => trivial
  | fast f => trivial
  | flagged impl f =>
    obtain ⟨reduced, holds⟩ := carries
    cases impl with
    | faster => trivial
    | mont =>
      intro nonzero
      by_contra large
      have overrun := LimbImpl.toBytes_overrun reduced built.1 holds rfl nonzero (not_le.mp large)
      exact Option.some_ne_none written (run.symm.trans overrun)

/-- A residue that is read is held, whatever the destination held before. -/
theorem fromBytes_carries (built : k.Built) (c : k.Object) {data : List UInt8} {r : ℕ}
    (reduced : r < k.order) (value : mpzImport (data.take k.bytes.fixedLength) = r) :
    k.Carries (k.bytes.fromBytes c data).1 r ∧
      (k.bytes.fromBytes c data).2 = k.bytes.fixedLength := by
  refine ⟨?_, by cases k <;> rfl⟩
  cases k with
  | naive p => exact ⟨reduced, congrArg (Nat.cast : ℕ → ℤ) value⟩
  | tiny f =>
    have short : (data.take (tinyFixedLength f)).length ≤ f.longBytes := by
      rw [tinyFixedLength_eq, List.length_take]
      exact (min_le_left _ _).trans byteCount_le_longBytes
    exact ⟨reduced, (tinyFromBytesLoop_eq short).trans value⟩
  | fast f =>
    refine ⟨reduced, ?_⟩
    show fastSetMpz f (mpzImport (data.take (fixedLengthInBytes f.order))) = r
    have read : mpzImport (data.take (fixedLengthInBytes f.order)) = r := value
    rw [read, fastSetMpz, ← Int.natCast_mod, Int.toNat_natCast]
    exact Nat.mod_eq_of_lt reduced
  | flagged impl f =>
    refine ⟨reduced, ?_⟩
    have read : mpzImport (data.take (fixedLengthInBytes f.order)) = r := value
    cases impl with
    | faster =>
      have held := fasterFromBytes_holds (f := f) c (read ▸ reduced)
      rwa [read] at held
    | mont =>
      have invertible : mpzImport (data.take (fixedLengthInBytes f.order)) = 0 ∨
          ¬f.order ∣ mpzImport (data.take (fixedLengthInBytes f.order)) := by
        rw [read]
        rcases Nat.eq_zero_or_pos r with zero | positive
        · exact Or.inl zero
        · exact Or.inr fun multiple => absurd (Nat.le_of_dvd positive multiple) (not_le.mpr reduced)
      have held := montFromBytes_holds built.1 c invertible
      rwa [read] at held

end FpField

section Extensions

variable {O O' R : Type} {m : ByteMethods O} {m' : ByteMethods O'} {holds : O → R → Prop}
  {holds' : O' → R → Prop}

theorem Interchanges.fq {e : O × O} {x : R × R} (first : Interchanges m m' holds' e.1 x.1)
    (second : Interchanges m m' holds' e.2 x.2) :
    Interchanges (fqBytes m) (fqBytes m') (fun e x => holds' e.1 x.1 ∧ holds' e.2 x.2) e x := by
  obtain ⟨same, data, run, length, read⟩ := first
  obtain ⟨-, data', run', length', read'⟩ := second
  refine ⟨by simp only [fqBytes, same], data ++ data', ?_, ?_, fun c rest => ?_⟩
  · simp [fqBytes, run, run', two_mul]
  · rw [List.length_append, length, length', fqBytes, two_mul]
  · obtain ⟨held, count⟩ := read c.1 (data' ++ rest)
    obtain ⟨held', count'⟩ := read' c.2 rest
    have skip : (data ++ (data' ++ rest)).drop m'.fixedLength = data' ++ rest :=
      List.drop_left' (length.trans same)
    simp only [fqBytes, List.append_assoc, count, skip, count', two_mul, and_true]
    exact ⟨held, held'⟩

theorem Interchanges.polymod {n : ℕ} {e : Fin n → O} {x : Fin n → R}
    (each : ∀ i, Interchanges m m' holds' (e i) (x i)) (same : m.fixedLength = m'.fixedLength) :
    Interchanges (polymodBytes n m) (polymodBytes n m') (fun e x => ∀ i, holds' (e i) (x i)) e x := by
  refine ⟨by simp only [polymodBytes, same], ?_⟩
  simp only [polymodBytes]
  induction n with
  | zero => exact ⟨[], rfl, rfl, fun c rest => ⟨fun i => i.elim0, rfl⟩⟩
  | succ n ih =>
    obtain ⟨-, data, run, length, read⟩ := each 0
    obtain ⟨data', run', length', read'⟩ := ih (e := Fin.tail e) (x := Fin.tail x) fun i => each i.succ
    refine ⟨data ++ data', ?_, ?_, fun c rest => ?_⟩
    · simp [polymodToBytesLoop, run, run', Nat.mul_succ, add_comm]
    · rw [List.length_append, length, length', Nat.mul_succ, add_comm]
    · obtain ⟨held, count⟩ := read (c 0) (data' ++ rest)
      obtain ⟨held', count'⟩ := read' (Fin.tail c) rest
      have skip : (data ++ (data' ++ rest)).drop m'.fixedLength = data' ++ rest :=
        List.drop_left' (length.trans same)
      simp only [polymodFromBytesLoop, List.append_assoc, count, skip, count', Nat.mul_succ]
      refine ⟨fun i => ?_, add_comm _ _⟩
      cases i using Fin.cases with
      | zero => exact held
      | succ i => exact held' i

/-- A condition that every written element meets, on the coordinates of an extension. -/
theorem Extension.all_of_toBytes {meets : R → Prop}
    (written : ∀ {e x w}, holds e x → m.toBytes e = some w → meets x) (t : Extension) :
    ∀ {e x w}, t.Coordinates holds e x → (t.bytes m).toBytes e = some w → t.All meets x := by
  induction t with
  | base => exact written
  | quadratic t ih =>
    intro e x w held run
    simp only [Extension.bytes, fqBytes, bind, Option.bind_eq_some_iff] at run
    obtain ⟨first, run, second, run', -⟩ := run
    exact ⟨ih held.1 run, ih held.2 run'⟩
  | polymod n t ih =>
    intro e x w held run
    simp only [Extension.bytes, polymodBytes] at run
    induction n generalizing w with
    | zero => exact fun i => i.elim0
    | succ n each =>
      simp only [polymodToBytesLoop, bind, Option.bind_eq_some_iff] at run
      obtain ⟨first, run, second, run', -⟩ := run
      intro i
      cases i using Fin.cases with
      | zero => exact ih (held 0) run
      | succ i => exact each (e := Fin.tail e) (x := Fin.tail x) (fun j => held j.succ) run' i

/-- Coordinates that interchange make elements that interchange. -/
theorem Extension.interchanges {meets : R → Prop}
    (each : ∀ {e x}, holds e x → meets x → Interchanges m m' holds' e x)
    (same : m.fixedLength = m'.fixedLength) (t : Extension) :
    (t.bytes m).fixedLength = (t.bytes m').fixedLength ∧
      ∀ {e x}, t.Coordinates holds e x → t.All meets x →
        Interchanges (t.bytes m) (t.bytes m') (t.Coordinates holds') e x := by
  induction t with
  | base => exact ⟨same, each⟩
  | quadratic t ih =>
    obtain ⟨length, read⟩ := ih
    refine ⟨by simp only [Extension.bytes, fqBytes, length], fun held all => ?_⟩
    exact (read held.1 all.1).fq (read held.2 all.2)
  | polymod n t ih =>
    obtain ⟨length, read⟩ := ih
    refine ⟨by simp only [Extension.bytes, polymodBytes, length], fun held all => ?_⟩
    exact Interchanges.polymod (fun i => read (held i) (all i)) length

end Extensions

/-- What one implementation writes of an element of `F_p`, or of an extension built over
it, every other one reads as the same residues, up to nonzero residues of more limbs than
Montgomery's array has. -/
theorem bytes_interchange_iff {k k' : FpField} (same : k.order = k'.order) (built : k.Built)
    (built' : k'.Built) (t : Extension) {e : t.Object k.Object} {x : t.Object ℕ}
    (carries : t.Coordinates k.Carries e x) :
    Interchanges (t.bytes k.bytes) (t.bytes k'.bytes) (t.Coordinates k'.Carries) e x ↔
      t.All k.Writes x := by
  have length : k.bytes.fixedLength = k'.bytes.fixedLength := by
    rw [FpField.bytes_fixedLength, FpField.bytes_fixedLength, same]
  constructor
  · rintro ⟨-, data, run, -⟩
    exact t.all_of_toBytes (fun held run => FpField.writes_of_toBytes built held run) carries run
  · refine (t.interchanges (fun {a r} held writes => ?_) length).2 carries
    obtain ⟨data, run, count, value⟩ := FpField.toBytes_eq built held writes
    refine ⟨length, data, run, count, fun c rest => ?_⟩
    refine FpField.fromBytes_carries built' c (same ▸ held.lt) ?_
    rw [← length, List.take_left' count, value]

end Values

section Small

private theorem smallLimbField_odd : smallLimbField.order % 2 = 1 := by decide

private theorem smallLimbField_built : (FpField.flagged .mont smallLimbField).Built :=
  ⟨smallLimbField_odd, montNegpinv_spec smallLimbField_odd (by decide)⟩

/-- One and zero, as the coordinates of an element of a quadratic extension, from
Montgomery's implementation to the naive one. -/
theorem bytes_interchange_small :
    Interchanges ((Extension.quadratic .base).bytes (FpField.flagged .mont smallLimbField).bytes)
      ((Extension.quadratic .base).bytes (FpField.naive 4294967311).bytes)
      ((Extension.quadratic .base).Coordinates (FpField.naive 4294967311).Carries)
      (montSet1 smallLimbField (fpInit 0), fpInit 0) ((1, 0) : ℕ × ℕ) := by
  have one := montSet1_holds smallLimbField_odd (fpInit 0)
  refine (@bytes_interchange_iff (.flagged .mont smallLimbField) (.naive 4294967311) rfl
    smallLimbField_built trivial (.quadratic .base) _ _ ⟨⟨by decide, ?_⟩, ⟨by decide, ?_⟩⟩).mpr ⟨?_, ?_⟩
  · rw [Nat.cast_one]
    exact one
  · rw [Nat.cast_zero]
    exact @LimbImpl.holds_zero .mont _ _ rfl
  · intro _
    rw [smallLimbField_limbs]
    decide
  · exact fun nonzero => absurd rfl nonzero

end Small

section Large

/-- The least integer of more than 1024 limbs of 32 bits. -/
def largeBound : ℕ := (256 ^ 4) ^ maxLimbs

theorem largeBound_eq {f : LimbField} (limb : f.limbBytes = 4) :
    largeBound = f.base ^ maxLimbs := by
  rw [largeBound, FpFieldData.base, limb]

theorem exists_large_prime : ∃ p, largeBound ≤ p ∧ p.Prime := Nat.exists_infinite_primes _

private theorem large_wide : 256 ^ 4 ≤ Nat.find exists_large_prime :=
  (Nat.le_self_pow (by decide) _).trans (Nat.find_spec exists_large_prime).1

private theorem large_positive : 0 < 4 := by decide

/-- The least prime of more than 1024 limbs, in limbs of 32 bits. -/
def largeLimbField : LimbField where
  limbBytes := 4
  order := Nat.find exists_large_prime
  positive := large_positive
  wide := large_wide

private theorem overrun_of_large {f : LimbField} (large : f.base ^ maxLimbs ≤ f.order)
    (prime : f.order.Prime) (narrow : f.limbBytes ≤ 4) :
    (FpField.flagged .mont f).Built ∧
      (FpField.flagged .mont f).Carries (montSet1 f (fpInit 0)) 1 ∧
      (FpField.flagged .mont f).bytes.toBytes (montSet1 f (fpInit 0)) = none := by
  have odd : f.order % 2 = 1 := by
    refine prime.eq_two_or_odd.resolve_left fun two => ?_
    have enough := f.base_le_order
    have byte : 256 ^ 1 ≤ f.base := Nat.pow_le_pow_right (by decide) f.positive
    omega
  have one : LimbImpl.mont.Holds f (montSet1 f (fpInit 0)) (1 : ℕ) := by
    rw [Nat.cast_one]
    exact montSet1_holds odd (fpInit 0)
  have limbs : maxLimbs < f.limbs :=
    Nat.lt_succ_of_le (Nat.le_log_of_pow_le f.one_lt_base large)
  refine ⟨⟨odd, montNegpinv_spec odd narrow⟩, ⟨prime.one_lt, one⟩, ?_⟩
  exact @LimbImpl.toBytes_overrun .mont f _ _ prime.one_lt odd one rfl one_ne_zero limbs

/-- Montgomery's implementation overruns its array where it writes the residue one of a
modulus of more than 1024 limbs. -/
theorem bytes_interchange_overrun :
    largeLimbField.order.Prime ∧ (FpField.flagged .mont largeLimbField).Built ∧
      (FpField.flagged .mont largeLimbField).Carries (montSet1 largeLimbField (fpInit 0)) 1 ∧
      (FpField.flagged .mont largeLimbField).bytes.toBytes (montSet1 largeLimbField (fpInit 0)) =
        none := by
  obtain ⟨large, prime⟩ := Nat.find_spec exists_large_prime
  have bound : largeBound = largeLimbField.base ^ maxLimbs := largeBound_eq rfl
  exact ⟨prime, overrun_of_large (bound.ge.trans large) prime le_rfl⟩

end Large

end Pbc.Arith
