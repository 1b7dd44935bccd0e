import Pbc.Arith.FpBytes
import Pbc.Arith.Poly

/-!
# Bytes of polynomials

`poly_to_bytes` writes the number of coefficients into two bytes and the coefficients behind
them, with the byte methods of the field below, whose elements need not have one length. The
reader and the writer agree on every polynomial whose count fits into the two bytes.
-/

open Pbc.Gmp

namespace Pbc.Arith

/-- The byte methods of a field with `fixed_length_in_bytes = -1`. They fail where an `int`
overflows, where an array does and where memory is read that holds nothing. -/
structure ElementBytes (O : Type) where
  init : O
  lengthInBytes : O → Option ℕ
  toBytes : O → Option (List UInt8 × ℕ)
  fromBytes : O → List UInt8 → Option (O × ℕ)

/-- The byte methods of a field whose elements have one length. -/
def ByteMethods.elementBytes {O : Type} (m : ByteMethods O) (init : O) : ElementBytes O where
  init := init
  lengthInBytes _ := some m.fixedLength
  toBytes := m.toBytes
  fromBytes c data := some (m.fromBytes c data)

section Operations

variable {O : Type}

/-- `result += len` of two `int`. -/
def addInt (result len : ℕ) : Option ℕ := if result + len < 2 ^ 31 then some (result + len) else none

/-- The loop of `poly_length_in_bytes`. -/
def polyLengthLoop (m : ElementBytes O) : List O → ℕ → Option ℕ
  | [], result => some result
  | c :: p, result => do
      let len ← m.lengthInBytes c
      let result ← addInt result len
      polyLengthLoop m p result

/-- The loop of `poly_to_bytes`. -/
def polyToBytesLoop (m : ElementBytes O) : List O → ℕ → Option (List UInt8 × ℕ)
  | [], result => some ([], result)
  | c :: p, result => do
      let (x, len) ← m.toBytes c
      let result ← addInt result len
      let (y, result) ← polyToBytesLoop m p result
      return (x ++ y, result)

/-- `poly_alloc`, which keeps the coefficients that were there. -/
def polyAlloc (m : ElementBytes O) (p : List O) (n : ℕ) : List O :=
  p.take n ++ List.replicate (n - p.length) m.init

/-- The loop of `poly_from_bytes`. -/
def polyFromBytesLoop (m : ElementBytes O) (buf : List UInt8) : List O → ℕ → Option (List O × ℕ)
  | [], result => some ([], result)
  | c :: p, result => do
      let (x, len) ← m.fromBytes c (buf.drop result)
      let result ← addInt result len
      let (y, result) ← polyFromBytesLoop m buf p result
      return (x :: y, result)

/-- `poly_length_in_bytes`, `poly_to_bytes` and `poly_from_bytes`. -/
def polyBytes (m : ElementBytes O) : ElementBytes (List O) where
  init := []
  lengthInBytes p := polyLengthLoop m p 2
  toBytes p := do
    let count := p.length
    let (data, result) ← polyToBytesLoop m p 2
    return (UInt8.ofNat count :: UInt8.ofNat (count / 256) :: data, result)
  fromBytes p buf := do
    let buf0 ← buf[0]?
    let buf1 ← buf[1]?
    let count := buf0.toNat + buf1.toNat * 256
    polyFromBytesLoop m buf (polyAlloc m p count) 2

end Operations

/-- The three numbers of bytes agree, and what is written is read back into any object, with
any memory behind it. -/
def ElementBytes.RoundTrips {O : Type} (m : ElementBytes O) (valid : O → Prop)
    (same : O → O → Prop) (e : O) : Prop :=
  ∃ data, m.lengthInBytes e = some data.length ∧ m.toBytes e = some (data, data.length) ∧
    ∀ c rest, valid c → ∃ e', m.fromBytes c (data ++ rest) = some (e', data.length) ∧ same e' e

/-- A correct byte codec on the valid objects, where `same` compares elements. -/
structure ElementBytes.Correct {O : Type} (m : ElementBytes O) (valid : O → Prop)
    (same : O → O → Prop) : Prop where
  init : valid m.init
  roundTrips : ∀ e, valid e → m.RoundTrips valid same e

/-- Elements that the implementations of one length interchange have a correct codec. -/
theorem ByteMethods.elementBytes_correct {O R : Type} {m : ByteMethods O} {holds : O → R → Prop}
    (each : ∀ {e x}, holds e x → Interchanges m m holds e x) {init : O} {x : R}
    (zero : holds init x) :
    (m.elementBytes init).Correct (fun e => ∃ x, holds e x)
      (fun e' e => ∃ x, holds e' x ∧ holds e x) where
  init := ⟨x, zero⟩
  roundTrips := by
    rintro e ⟨x, held⟩
    obtain ⟨-, data, run, length, read⟩ := each held
    refine ⟨data, ?_, ?_, ?_⟩
    · rw [length]
      rfl
    · rw [length]
      exact run
    · intro c rest _
      obtain ⟨held', count⟩ := read c rest
      refine ⟨(m.fromBytes c (data ++ rest)).1, ?_, x, held', held⟩
      rw [length, ← count]
      rfl

section Values

variable {O : Type} {m : ElementBytes O} {valid : O → Prop} {same : O → O → Prop}

/-- The bytes of all coefficients. -/
def coefficientBytes (m : ElementBytes O) (p : List O) : ℕ :=
  (p.map fun c => (m.lengthInBytes c).getD 0).sum

theorem coefficientBytes_cons (c : O) (p : List O) :
    coefficientBytes m (c :: p) = (m.lengthInBytes c).getD 0 + coefficientBytes m p :=
  List.sum_cons

theorem addInt_ok {result len : ℕ} (fits : result + len < 2 ^ 31) :
    addInt result len = some (result + len) := if_pos fits

/-- A length that is announced is the sum, and fits. -/
theorem polyLengthLoop_fits {p : List O} {result n : ℕ} (start : result < 2 ^ 31)
    (run : polyLengthLoop m p result = some n) : result + coefficientBytes m p < 2 ^ 31 := by
  induction p generalizing result with
  | nil => exact start
  | cons c p ih =>
    simp only [polyLengthLoop, bind, Option.bind_eq_some_iff] at run
    obtain ⟨len, length, sum, added, rest⟩ := run
    rw [addInt] at added
    split at added
    · next fits =>
      cases added
      have total := ih fits rest
      rw [coefficientBytes_cons, length, Option.getD_some]
      omega
    · cases added

/-- The reader leaves as many coefficients as it allocates. -/
theorem polyFromBytesLoop_length {buf : List UInt8} {p q : List O} {result n : ℕ}
    (run : polyFromBytesLoop m buf p result = some (q, n)) : q.length = p.length := by
  induction p generalizing q result n with
  | nil =>
    cases run
    rfl
  | cons c p ih =>
    simp only [polyFromBytesLoop, bind, Option.bind_eq_some_iff] at run
    obtain ⟨⟨x, len⟩, -, sum, -, ⟨y, total⟩, rest, last⟩ := run
    cases last
    rw [List.length_cons, List.length_cons, ih rest]

theorem length_polyAlloc (p : List O) (n : ℕ) : (polyAlloc m p n).length = n := by
  rw [polyAlloc, List.length_append, List.length_take, List.length_replicate]
  omega

theorem polyAlloc_valid (correct : m.Correct valid same) {p : List O}
    (objects : ∀ c ∈ p, valid c) (n : ℕ) : ∀ c ∈ polyAlloc m p n, valid c := by
  intro c member
  rcases List.mem_append.mp member with kept | added
  · exact objects c (List.mem_of_mem_take kept)
  · rw [List.eq_of_mem_replicate added]
    exact correct.init

/-- What the loops write and read, from any place of the buffer on. -/
theorem polyLoops_roundTrip (correct : m.Correct valid same) {p : List O}
    (coefficients : ∀ c ∈ p, valid c) {result : ℕ}
    (fits : result + coefficientBytes m p < 2 ^ 31) :
    ∃ data, polyLengthLoop m p result = some (result + data.length) ∧
      polyToBytesLoop m p result = some (data, result + data.length) ∧
      ∀ front rest old, front.length = result → old.length = p.length → (∀ c ∈ old, valid c) →
        ∃ q, polyFromBytesLoop m (front ++ data ++ rest) old result =
          some (q, result + data.length) ∧ List.Forall₂ same q p := by
  induction p generalizing result with
  | nil =>
    refine ⟨[], rfl, rfl, ?_⟩
    intro front rest old _ empty _
    rw [List.length_eq_zero_iff.mp empty]
    exact ⟨[], rfl, List.Forall₂.nil⟩
  | cons c p ih =>
    obtain ⟨first, length, written, read⟩ :=
      correct.roundTrips c (coefficients c List.mem_cons_self)
    rw [coefficientBytes_cons, length, Option.getD_some] at fits
    have room : result + first.length + coefficientBytes m p < 2 ^ 31 := by omega
    obtain ⟨data, total, run, back⟩ :=
      ih (fun c member => coefficients c (List.mem_cons_of_mem _ member)) room
    have added : addInt result first.length = some (result + first.length) :=
      addInt_ok (by omega)
    have sum : result + (first ++ data).length = result + first.length + data.length := by
      rw [List.length_append, add_assoc]
    refine ⟨first ++ data, ?_, ?_, ?_⟩
    · rw [polyLengthLoop, length, sum]
      simp only [bind, Option.bind_some, added, total]
    · rw [polyToBytesLoop, written, sum]
      simp only [bind, Option.bind_some, added, run, pure]
    · intro front rest old place count objects
      cases old with
      | nil => cases count
      | cons o old =>
        obtain ⟨e, taken, equal⟩ := read o (data ++ rest) (objects o List.mem_cons_self)
        obtain ⟨q, taken', equal'⟩ := back (front ++ first) rest old
          (by rw [List.length_append, place]) (Nat.succ.inj count)
          (fun c member => objects c (List.mem_cons_of_mem _ member))
        refine ⟨e :: q, ?_, List.Forall₂.cons equal equal'⟩
        have skip : (front ++ (first ++ data) ++ rest).drop result = first ++ (data ++ rest) := by
          rw [← place, List.append_assoc, List.drop_left, List.append_assoc]
        have whole : front ++ (first ++ data) ++ rest = front ++ first ++ data ++ rest := by
          simp only [List.append_assoc]
        rw [polyFromBytesLoop, skip, taken, sum, whole]
        simp only [bind, Option.bind_some, added, taken', pure]

/-- The two bytes of a count. -/
theorem count_bytes (count : ℕ) :
    (UInt8.ofNat count).toNat + (UInt8.ofNat (count / 256)).toNat * 256 = count % 65536 := by
  rw [UInt8.toNat_ofNat', UInt8.toNat_ofNat']
  omega

/-- The reader allocates what is left of the count in two bytes. -/
theorem polyBytes_fromBytes (c : List O) (count : ℕ) (data : List UInt8) :
    (polyBytes m).fromBytes c (UInt8.ofNat count :: UInt8.ofNat (count / 256) :: data) =
      polyFromBytesLoop m (UInt8.ofNat count :: UInt8.ofNat (count / 256) :: data)
        (polyAlloc m c (count % 65536)) 2 := by
  rw [← count_bytes]
  rfl

/-- A count that does not fit is lost. -/
theorem polyBytes_count_lt {p : List O}
    (trip : (polyBytes m).RoundTrips (fun q => ∀ c ∈ q, valid c) (List.Forall₂ same) p) :
    p.length < 65536 := by
  obtain ⟨data, -, run, read⟩ := trip
  obtain ⟨q, back, equal⟩ := read [] [] (List.forall_mem_nil _)
  simp only [polyBytes, bind, Option.bind_eq_some_iff] at run
  obtain ⟨⟨written, result⟩, -, last⟩ := run
  obtain ⟨rfl, -⟩ := Prod.mk.inj (Option.some.inj last)
  rw [List.append_nil, polyBytes_fromBytes] at back
  have allocated := polyFromBytesLoop_length back
  rw [length_polyAlloc, equal.length_eq] at allocated
  omega

/-- A polynomial whose count fits into two bytes, and whose length into an `int`. -/
theorem polyBytes_roundTrips (correct : m.Correct valid same) {p : List O}
    (coefficients : ∀ c ∈ p, valid c) (count : p.length < 65536)
    (fits : 2 + coefficientBytes m p < 2 ^ 31) :
    (polyBytes m).RoundTrips (fun q => ∀ c ∈ q, valid c) (List.Forall₂ same) p := by
  obtain ⟨data, length, written, read⟩ := polyLoops_roundTrip correct coefficients fits
  have size : (UInt8.ofNat p.length :: UInt8.ofNat (p.length / 256) :: data).length =
      2 + data.length := by
    rw [List.length_cons, List.length_cons]
    omega
  refine ⟨UInt8.ofNat p.length :: UInt8.ofNat (p.length / 256) :: data, ?_, ?_, ?_⟩
  · rw [size]
    exact length
  · rw [size]
    simp only [polyBytes, bind, Option.bind_some, written, pure]
  · intro c rest objects
    rw [List.cons_append, List.cons_append, polyBytes_fromBytes, Nat.mod_eq_of_lt count, size]
    exact read [_, _] rest (polyAlloc m c p.length) rfl (length_polyAlloc c p.length)
      (polyAlloc_valid correct objects p.length)

/-- A polynomial makes the round trip exactly when its count fits into two bytes and its
length into an `int`. -/
theorem polyBytes_roundTrips_iff (correct : m.Correct valid same) {p : List O}
    (coefficients : ∀ c ∈ p, valid c) :
    (polyBytes m).RoundTrips (fun q => ∀ c ∈ q, valid c) (List.Forall₂ same) p ↔
      p.length < 65536 ∧ 2 + coefficientBytes m p < 2 ^ 31 := by
  constructor
  · intro trip
    refine ⟨polyBytes_count_lt trip, ?_⟩
    obtain ⟨data, length, -⟩ := trip
    exact polyLengthLoop_fits (by decide) length
  · rintro ⟨count, fits⟩
    exact polyBytes_roundTrips correct coefficients count fits

/-- Polynomials whose coefficients are such polynomials have a correct codec as well. -/
theorem polyBytes_correct (correct : m.Correct valid same) : (polyBytes m).Correct
    (fun p => (∀ c ∈ p, valid c) ∧ p.length < 65536 ∧ 2 + coefficientBytes m p < 2 ^ 31)
    (List.Forall₂ same) where
  init := ⟨List.forall_mem_nil _, (by decide : 0 < 65536), (by decide : 2 + 0 < 2 ^ 31)⟩
  roundTrips := by
    rintro p ⟨coefficients, count, fits⟩
    obtain ⟨data, length, written, read⟩ :=
      polyBytes_roundTrips correct coefficients count fits
    exact ⟨data, length, written, fun c rest objects => read c rest objects.1⟩

end Values

section Fields

variable {k : FpField}

/-- The objects of an implementation of `F_p` that can be written. -/
def FpField.Writable (k : FpField) (e : k.Object) (r : ℕ) : Prop := k.Carries e r ∧ k.Writes r

/-- Every implementation of `F_p` has a correct codec. -/
theorem fpBytes_correct (built : k.Built) {init : k.Object} (zero : k.Carries init 0) :
    (k.bytes.elementBytes init).Correct (fun e => ∃ r, k.Writable e r)
      (fun e' e => ∃ r, k.Writable e' r ∧ k.Writable e r) := by
  have writes : k.Writes 0 := by
    cases k with
    | flagged impl f =>
      cases impl with
      | faster => trivial
      | mont => exact fun nonzero => absurd rfl nonzero
    | _ => trivial
  refine ByteMethods.elementBytes_correct ?_ (⟨zero, writes⟩ : k.Writable init 0)
  rintro e r ⟨carries, written⟩
  obtain ⟨data, run, count, value⟩ := FpField.toBytes_eq built carries written
  refine ⟨rfl, data, run, count, ?_⟩
  intro c rest
  have front : mpzImport ((data ++ rest).take k.bytes.fixedLength) = r := by
    rw [List.take_left' count, value]
  obtain ⟨held, length⟩ := FpField.fromBytes_carries built c carries.lt front
  exact ⟨⟨held, written⟩, length⟩

end Fields

section Small

/-- The naive implementation of `F_5`. -/
def fiveBytes : ElementBytes ℤ := (zpBytes 5).elementBytes 0

theorem fiveBytes_correct : fiveBytes.Correct (fun e => ∃ r, (FpField.naive 5).Writable e r)
    (fun e' e => ∃ r, (FpField.naive 5).Writable e' r ∧ (FpField.naive 5).Writable e r) :=
  fpBytes_correct (k := .naive 5) trivial ⟨by decide, rfl⟩

/-- The coefficients of `1 + 2 x`. -/
theorem polyBytes_roundTrips_small :
    (polyBytes fiveBytes).RoundTrips (fun q => ∀ c ∈ q, ∃ r, (FpField.naive 5).Writable c r)
        (List.Forall₂ fun e' e => ∃ r, (FpField.naive 5).Writable e' r ∧
          (FpField.naive 5).Writable e r) [1, 2] ↔
      [(1 : ℤ), 2].length < 65536 ∧ 2 + coefficientBytes fiveBytes [1, 2] < 2 ^ 31 := by
  refine polyBytes_roundTrips_iff fiveBytes_correct ?_
  intro c member
  rcases List.mem_pair.mp member with rfl | rfl
  · exact ⟨1, ⟨by decide, rfl⟩, trivial⟩
  · exact ⟨2, ⟨by decide, rfl⟩, trivial⟩

/-- The polynomial `x^65535` is written with a count of zero. -/
theorem polyBytes_drops :
    let p : List ℤ := List.replicate 65535 0 ++ [1]
    polyRemoveLeadingZeroes p = p ∧ (∀ c ∈ p, ∃ r, (FpField.naive 5).Writable c r) ∧
      ¬(polyBytes fiveBytes).RoundTrips (fun q => ∀ c ∈ q, ∃ r, (FpField.naive 5).Writable c r)
        (List.Forall₂ fun e' e => ∃ r, (FpField.naive 5).Writable e' r ∧
          (FpField.naive 5).Writable e r) p := by
  intro p
  refine ⟨List.rdropWhile_concat_neg _ _ _ (by decide), ?_, ?_⟩
  · intro c member
    rcases List.mem_append.mp member with zero | one
    · rw [List.eq_of_mem_replicate zero]
      exact ⟨0, ⟨by decide, rfl⟩, trivial⟩
    · rw [List.mem_singleton.mp one]
      exact ⟨1, ⟨by decide, rfl⟩, trivial⟩
  · intro trip
    have count := polyBytes_count_lt trip
    rw [List.length_append, List.length_replicate] at count
    exact absurd count (by decide)

end Small

end Pbc.Arith
