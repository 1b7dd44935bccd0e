import Pbc.Arith.ZBytes
import Pbc.Ecc.CurveZp
import Pbc.Ecc.PointBytes

/-!
# Hashing to a curve

`curve_from_hash` increments the first byte of a copy of its input until the hash is the abscissa
of a point, takes a root of either sign, turns it to the positive one and multiplies by the
cofactor. The abscissa is not reduced, so the multiplication may meet the modulus in place of
zero.
-/

open Pbc.Arith Pbc.Elliptic Pbc.Gmp WeierstrassCurve.Affine

namespace Pbc.Ecc

/-- What can stop `curve_from_hash`. -/
inductive PointHashFault where
  | fuel
  | overrun
  | unspecified
deriving DecidableEq

section Operations

variable (p : ℕ) [Fact p.Prime]

/-- `zp_is_sqr`, with the Legendre symbol for `mpz_legendre`. -/
def zpIsSqr (a : ℤ) : Bool := if zpIs0 a then true else legendreSym p a = 1

omit [Fact p.Prime] in
/-- The right side of the equation in the temporary element `t`. -/
def zpRightSide (a b x : ℤ) : ℤ :=
  let t := zpSquare p x
  let t := zpAdd p t a
  let t := zpMul p t x
  zpAdd p t b

omit [Fact p.Prime] in
/-- The bytes of a buffer. -/
def readBytes (memory : ByteMemory) (start len : ℕ) : List UInt8 :=
  (List.range len).map fun i => memory (start + i)

/-- The loop of `curve_from_hash`, which leaves the abscissa and `t`. -/
def hashTries (a b : ℤ) (datacopy len : ℕ) : ℕ → ByteMemory →
    Except PointHashFault (ByteMemory × ℤ × ℤ)
  | 0, _ => .error .fuel
  | fuel + 1, memory =>
      match zpFromHash p (readBytes memory datacopy len) with
      | none => .error .overrun
      | some x =>
          let t := zpRightSide p a b x
          if zpIsSqr p t then .ok (memory, x, t)
          else hashTries a b datacopy len fuel
            (Function.update memory datacopy (memory datacopy + 1))

/-- `element_mul_mpz` by the cofactor, if there is one. -/
def mulCofac (invert : ℤ → Except Exit ℤ) (cca : ℤ) (cofac : Option ℕ) (e : PointS ℤ) :
    Except PointHashFault (PointS ℤ) :=
  match cofac with
  | none => .ok e
  | some cofac =>
      match zpCurveMulMpz p invert cca e e cofac with
      | .ok e => .ok e
      | .error _ => .error .unspecified

/-- `curve_from_hash`, where `pbc_malloc` gives the block at `datacopy`. -/
def zpCurveFromHash (invert : ℤ → Except Exit ℤ) (nqr a b : ℤ) (cofac : Option ℕ)
    (datacopy : ℕ) (e : PointS ℤ) (data len : ℕ) (memory : ByteMemory) (fuel : ℕ) :
    Except PointHashFault (ByteMemory × PointS ℤ) := do
  let memory := writeBytes memory datacopy (readBytes memory data len)
  let e := { e with infFlag := false }
  let (memory, x, t) ← hashTries p a b datacopy len fuel memory
  let e := { e with x := x }
  match fpTonelli (zpTable p) p nqr t with
  | none => .error .unspecified
  | some y =>
      let e := { e with y := y }
      let e := if zpSgnOdd e.y < 0 then { e with y := zpNeg p e.y } else e
      let e ← mulCofac p invert a cofac e
      return (memory, e)

end Operations

/-- A call on given bytes: whatever the square roots, the inverses without a specified value, the
addresses and the element are. -/
structure HashCall (p : ℕ) (bytes : List UInt8) where
  nqr : ℤ
  invert : ℤ → Except Exit ℤ
  memory : ByteMemory
  data : ℕ
  datacopy : ℕ
  element : PointS ℤ
  nonresidue : ¬IsSquare (nqr : ZMod p)
  units : InvertsUnits p invert
  holds : readBytes memory data bytes.length = bytes
  apart : ∀ i j, i < bytes.length → j < bytes.length → data + i ≠ datacopy + j

/-- The routine on the call. -/
def HashCall.run {p : ℕ} [Fact p.Prime] {bytes : List UInt8} (call : HashCall p bytes) (a b : ℤ)
    (cofac : Option ℕ) (fuel : ℕ) : Except PointHashFault (ByteMemory × PointS ℤ) :=
  zpCurveFromHash p call.invert call.nqr a b cofac call.datacopy call.element call.data
    bytes.length call.memory fuel

/-- The bytes after some increments of the first one. -/
def hashTry (bytes : List UInt8) (i : ℕ) : List UInt8 := bytes.modifyHead (· + UInt8.ofNat i)

section Property

variable (p : ℕ) [Fact p.Prime] (a b : ℤ)

/-- The loop ends with the abscissa `x`: the first hash that has a point above it. -/
def StopsAt (bytes : List UInt8) (x : ℤ) : Prop :=
  ∃ n, zpFromHash p (hashTry bytes n) = some x ∧ zpIsSqr p (zpRightSide p a b x) = true ∧
    ∀ i < n, ∀ x', zpFromHash p (hashTry bytes i) = some x' →
      zpIsSqr p (zpRightSide p a b x') = false

/-- What hashing to a curve is for: a call that ends leaves the multiple by the cofactor of a point
with a positive ordinate, `O` or a point of the curve, and the input as it was; and the bytes
determine the point. -/
structure HashesToCurve (cofac : Option ℕ) (bytes : List UInt8) : Prop where
  right : ∀ (call : HashCall p bytes) fuel, call.run a b cofac fuel = .error .fuel ∨
    ∃ memory e, call.run a b cofac fuel = .ok (memory, e) ∧ e.OnCurve p a b ∧
      (∃ (x y : ℤ) (on : (short (a : ZMod p) b).Nonsingular x y), 0 ≤ zpSgnOdd y ∧
        LeastResidue p y ∧ (e.map Int.cast).Represents (cofac.getD 1 • Point.some _ _ on)) ∧
      readBytes memory call.data bytes.length = bytes
  determined : ∀ (call call' : HashCall p bytes) fuel fuel' memory memory' e e',
    call.run a b cofac fuel = .ok (memory, e) → call'.run a b cofac fuel' = .ok (memory', e') →
      ∃ P : (short (a : ZMod p) b).Point,
        (e.map Int.cast).Represents P ∧ (e'.map Int.cast).Represents P

end Property

section Memory

variable {memory memory' : ByteMemory}

theorem readBytes_succ (memory : ByteMemory) (start len : ℕ) :
    readBytes memory start (len + 1) = memory start :: readBytes memory (start + 1) len := by
  rw [readBytes, List.range_succ_eq_map, List.map_cons, List.map_map]
  refine congrArg₂ _ rfl (List.map_congr_left ?_)
  intro i _
  exact congrArg memory (by omega)

/-- A buffer holds the same bytes as long as its cells do. -/
theorem readBytes_congr {start len : ℕ}
    (same : ∀ i < len, memory' (start + i) = memory (start + i)) :
    readBytes memory' start len = readBytes memory start len :=
  List.map_congr_left fun i inside => same i (List.mem_range.mp inside)

/-- A copy holds what was copied. -/
theorem readBytes_write (memory : ByteMemory) (start : ℕ) (bytes : List UInt8) :
    readBytes (writeBytes memory start bytes) start bytes.length = bytes := by
  apply List.ext_getElem
  · rw [readBytes, List.length_map, List.length_range]
  · intro i _ inside
    simp only [readBytes, List.getElem_map, List.getElem_range]
    rw [writeBytes_inside memory inside, List.getD_eq_getElem _ _ inside]

/-- The cells outside the copy. -/
theorem writeBytes_other (memory : ByteMemory) {start i : ℕ} {bytes : List UInt8}
    (outside : ∀ j < bytes.length, i ≠ start + j) : writeBytes memory start bytes i = memory i := by
  rcases lt_or_ge i start with before | after
  · rw [writeBytes, if_neg (not_le.mpr before)]
  · apply writeBytes_behind memory
    by_contra inside
    exact outside (i - start) (by omega) (by omega)

theorem hashTry_zero (bytes : List UInt8) : hashTry bytes 0 = bytes := by
  cases bytes with
  | nil => rfl
  | cons byte bytes =>
    rw [hashTry, List.modifyHead_cons]
    exact congrArg (· :: bytes) (UInt8.add_zero byte)

/-- One more increment. -/
theorem hashTry_succ {bytes : List UInt8} (nonempty : bytes ≠ []) {datacopy i : ℕ}
    (holds : readBytes memory datacopy bytes.length = hashTry bytes i) :
    readBytes (Function.update memory datacopy (memory datacopy + 1)) datacopy bytes.length =
      hashTry bytes (i + 1) := by
  cases bytes with
  | nil => exact absurd rfl nonempty
  | cons byte bytes =>
    rw [List.length_cons, readBytes_succ, hashTry, List.modifyHead_cons] at holds ⊢
    obtain ⟨first, rest⟩ := List.cons.inj holds
    have others : readBytes (Function.update memory datacopy (memory datacopy + 1)) (datacopy + 1)
        bytes.length = readBytes memory (datacopy + 1) bytes.length := by
      apply readBytes_congr
      intro j _
      exact Function.update_of_ne (by omega) _ _
    rw [others, rest, Function.update_self, first, UInt8.ofNat_add, UInt8.add_assoc]
    rfl

end Memory

section Tries

variable {p : ℕ} [prime : Fact p.Prime] {a b : ℤ} {bytes : List UInt8}

omit prime in
/-- With enough room in its buffer the hash is at most the modulus. -/
theorem zpFromHash_le (fits : byteCount p ≤ 2 * maxLimbs) (data : List UInt8) :
    ∃ x, zpFromHash p data = some x ∧ 0 ≤ x ∧ x ≤ p := by
  obtain ⟨bounded, -⟩ := shrinkLoop_spec p _ (mpzImport (hashBuf (byteCount p) data))
    Nat.lt_log2_self
  refine ⟨_, congrArg (Option.map Nat.cast) (if_pos fits), Int.natCast_nonneg _, ?_⟩
  exact_mod_cast bounded

/-- The loop ends only at the first abscissa of a point. -/
theorem hashTries_spec (fits : byteCount p ≤ 2 * maxLimbs) (nonempty : bytes ≠ []) {datacopy : ℕ}
    (fuel i : ℕ) {memory : ByteMemory}
    (holds : readBytes memory datacopy bytes.length = hashTry bytes i) :
    hashTries p a b datacopy bytes.length fuel memory = .error .fuel ∨
      ∃ n memory' x, hashTries p a b datacopy bytes.length fuel memory =
          .ok (memory', x, zpRightSide p a b x) ∧
        zpFromHash p (hashTry bytes (i + n)) = some x ∧ zpIsSqr p (zpRightSide p a b x) = true ∧
        (∀ j < n, ∀ x', zpFromHash p (hashTry bytes (i + j)) = some x' →
          zpIsSqr p (zpRightSide p a b x') = false) ∧
        ∀ k, k ≠ datacopy → memory' k = memory k := by
  induction fuel generalizing i memory with
  | zero => exact Or.inl rfl
  | succ fuel ih =>
    obtain ⟨x, hashed, -⟩ := zpFromHash_le fits (hashTry bytes i)
    rw [hashTries, holds, hashed]
    simp only
    by_cases square : zpIsSqr p (zpRightSide p a b x) = true
    · rw [if_pos square]
      refine Or.inr ⟨0, memory, x, rfl, hashed, square, ?_, ?_⟩
      · intro j before
        exact absurd before (Nat.not_lt_zero j)
      · intro k _
        rfl
    · rw [if_neg square]
      rcases ih (i + 1) (hashTry_succ nonempty holds) with
        out | ⟨n, memory', x', run, found, square', before, others⟩
      · exact Or.inl out
      · refine Or.inr ⟨n + 1, memory', x', run, ?_, square', ?_, ?_⟩
        · rwa [show i + (n + 1) = i + 1 + n by omega]
        · intro j inside x'' hashed''
          cases j with
          | zero =>
            obtain rfl := Option.some.inj (hashed.symm.trans hashed'')
            exact Bool.eq_false_iff.mpr square
          | succ j =>
            rw [show i + (j + 1) = i + 1 + j by omega] at hashed''
            exact before j (by omega) x'' hashed''
        · intro k other
          rw [others k other, Function.update_of_ne other]

/-- Where some abscissa has a point above it the loop ends. -/
theorem hashTries_ends (nonempty : bytes ≠ []) {datacopy : ℕ} (n i : ℕ) {memory : ByteMemory}
    (holds : readBytes memory datacopy bytes.length = hashTry bytes i) {x : ℤ}
    (hashed : zpFromHash p (hashTry bytes (i + n)) = some x)
    (square : zpIsSqr p (zpRightSide p a b x) = true) :
    hashTries p a b datacopy bytes.length (n + 1) memory ≠ .error .fuel := by
  induction n generalizing i memory with
  | zero =>
    rw [hashTries, holds, ← Nat.add_zero i, hashed]
    simp only
    rw [if_pos square]
    intro out
    cases out
  | succ n ih =>
    rw [hashTries, holds]
    split
    · intro out
      cases out
    · simp only
      split
      · intro out
        cases out
      · apply ih (i + 1) (hashTry_succ nonempty holds)
        rwa [show i + 1 + n = i + (n + 1) by omega]

/-- The bytes determine the abscissa. -/
theorem StopsAt.unique {x x' : ℤ} (stops : StopsAt p a b bytes x) (stops' : StopsAt p a b bytes x') :
    x = x' := by
  obtain ⟨n, hashed, square, before⟩ := stops
  obtain ⟨n', hashed', square', before'⟩ := stops'
  rcases lt_trichotomy n n' with less | rfl | more
  · exact absurd square (Bool.eq_false_iff.mp (before' n less x hashed))
  · exact Option.some.inj (hashed.symm.trans hashed')
  · exact absurd square' (Bool.eq_false_iff.mp (before n' more x' hashed'))

end Tries

section Roots

variable {p : ℕ} [prime : Fact p.Prime]

/-- What passes the test is a square. -/
theorem zpIsSqr_isSquare {a : ℤ} (square : zpIsSqr p a = true) : IsSquare (a : ZMod p) := by
  by_cases zero : (a : ZMod p) = 0
  · rw [zero]
    exact IsSquare.zero
  · have stored : ¬zpIs0 a = true := by
      intro is0
      rw [zpIs0, decide_eq_true_iff] at is0
      exact zero (by rw [is0, Int.cast_zero])
    rw [zpIsSqr, if_neg stored, decide_eq_true_iff] at square
    exact (legendreSym.eq_one_iff p zero).mp square

theorem zpRightSide_cast (a b x : ℤ) :
    (zpRightSide p a b x : ZMod p) = (x : ZMod p) ^ 3 + a * x + b := by
  simp only [zpRightSide, zpAdd_cast, zpMul_cast, zpSquare_cast]
  ring

/-- The sign of the root is made positive. -/
theorem zpSgn_normal (odd : p ≠ 2) {y : ℤ} (reduced : LeastResidue p y) :
    LeastResidue p (if zpSgnOdd y < 0 then zpNeg p y else y) ∧
      0 ≤ zpSgnOdd (if zpSgnOdd y < 0 then zpNeg p y else y) ∧
        (((if zpSgnOdd y < 0 then zpNeg p y else y : ℤ)) : ZMod p) ^ 2 = (y : ZMod p) ^ 2 := by
  have turns := zpSgn_neg odd reduced
  split
  · next negative =>
    refine ⟨zpNeg_reduced reduced, by omega, ?_⟩
    rw [zpNeg_cast, neg_sq]
  · next positive => exact ⟨reduced, not_lt.mp positive, rfl⟩

/-- One of the two roots has a sign that is not negative. -/
theorem root_unique (odd : p ≠ 2) {y z : ℤ} (left : LeastResidue p y) (right : LeastResidue p z)
    (signY : 0 ≤ zpSgnOdd y) (signZ : 0 ≤ zpSgnOdd z)
    (squares : (y : ZMod p) ^ 2 = (z : ZMod p) ^ 2) : y = z := by
  rcases sq_eq_sq_iff_eq_or_eq_neg.mp squares with same | opposite
  · exact eq_of_cast_eq left right same
  · rw [← zpNeg_cast] at opposite
    have negated := eq_of_cast_eq left (zpNeg_reduced right) opposite
    have turns := zpSgn_neg odd right
    rw [← negated] at turns
    rw [negated, eq_zero_of_zpSgn odd right (by omega)]
    rfl

end Roots

section Calls

variable {p : ℕ} [prime : Fact p.Prime] {a b : ℤ} {bytes : List UInt8}

/-- What a call computes before it multiplies by the cofactor: a point that the bytes determine. -/
theorem HashCall.run_spec (odd : p ≠ 2) (fits : byteCount p ≤ 2 * maxLimbs) (nonempty : bytes ≠ [])
    (call : HashCall p bytes) (cofac : Option ℕ) (fuel : ℕ) :
    call.run a b cofac fuel = .error .fuel ∨
      ∃ memory x y, StopsAt p a b bytes x ∧ (0 ≤ x ∧ x ≤ p) ∧ LeastResidue p y ∧
        0 ≤ zpSgnOdd y ∧ (y : ZMod p) ^ 2 = (x : ZMod p) ^ 3 + a * x + b ∧
        readBytes memory call.data bytes.length = bytes ∧
        call.run a b cofac fuel =
          (mulCofac p call.invert a cofac ⟨false, x, y⟩).map fun e => (memory, e) := by
  have copied : readBytes (writeBytes call.memory call.datacopy bytes) call.datacopy bytes.length =
      hashTry bytes 0 := by
    rw [readBytes_write, hashTry_zero]
  rcases hashTries_spec (a := a) (b := b) fits nonempty fuel 0 copied with
    out | ⟨n, memory, x, run, hashed, square, before, others⟩
  · left
    rw [HashCall.run, zpCurveFromHash, call.holds, out]
    rfl
  · right
    rw [Nat.zero_add] at hashed
    obtain ⟨x', hashed', range⟩ := zpFromHash_le fits (hashTry bytes n)
    obtain rfl := Option.some.inj (hashed.symm.trans hashed')
    obtain ⟨root, tonelli, right⟩ := fpTonelli_sq zpTable_implements odd call.nonresidue
      (zpIsSqr_isSquare square)
    obtain ⟨reduced, sign, squares⟩ := zpSgn_normal odd (fpTonelli_reduced tonelli)
    refine ⟨memory, x, _, ⟨n, hashed, square, ?_⟩, range, reduced, sign, ?_, ?_, ?_⟩
    · intro j inside x' hashed'
      apply before j inside x'
      rwa [Nat.zero_add]
    · rw [squares, right, zpRightSide_cast]
    · refine (readBytes_congr ?_).trans call.holds
      intro i inside
      have first : call.data + i ≠ call.datacopy :=
        call.apart i 0 inside (List.length_pos_iff.mpr nonempty)
      rw [others _ first, writeBytes_other]
      intro j inside'
      exact call.apart i j inside inside'
    · have object : (if zpSgnOdd root < 0 then (⟨false, x, zpNeg p root⟩ : PointS ℤ)
          else ⟨false, x, root⟩) = ⟨false, x, if zpSgnOdd root < 0 then zpNeg p root else root⟩ := by
        split <;> rfl
      rw [HashCall.run, zpCurveFromHash, call.holds, run]
      simp only [bind, Except.bind, tonelli, object]
      cases mulCofac p call.invert a cofac _ <;> rfl

omit prime in
/-- The multiplication ends. -/
theorem mulCofac_ne_fuel (invert : ℤ → Except Exit ℤ) (cca : ℤ) (cofac : Option ℕ)
    (e : PointS ℤ) : mulCofac p invert cca cofac e ≠ .error .fuel := by
  intro out
  unfold mulCofac at out
  split at out
  · cases out
  · split at out
    · cases out
    · cases out

/-- Where some abscissa has a point above it the call ends. -/
theorem HashCall.run_ends (nonempty : bytes ≠ []) (call : HashCall p bytes) (cofac : Option ℕ)
    {x : ℤ} (stops : StopsAt p a b bytes x) :
    ∃ fuel, call.run a b cofac fuel ≠ .error .fuel := by
  obtain ⟨n, hashed, square, -⟩ := stops
  have copied : readBytes (writeBytes call.memory call.datacopy bytes) call.datacopy bytes.length =
      hashTry bytes 0 := by
    rw [readBytes_write, hashTry_zero]
  have ends := hashTries_ends nonempty n 0 copied (by rwa [Nat.zero_add]) square
  refine ⟨n + 1, ?_⟩
  rw [HashCall.run, zpCurveFromHash, call.holds]
  simp only [bind, Except.bind]
  split
  · next fault out =>
    intro same
    cases same
    exact ends out
  · split
    · intro out
      cases out
    · intro out
      split at out
      · next fault failed =>
        cases out
        exact mulCofac_ne_fuel _ _ _ _ failed
      · cases out

/-- The multiplication by the cofactor. -/
theorem mulCofac_ok (two : (2 : ZMod p) ≠ 0) {invert : ℤ → Except Exit ℤ}
    (units : InvertsUnits p invert) {e : PointS ℤ} (stored : e.Stored p)
    {P : (short (a : ZMod p) b).Point} (represents : (e.map Int.cast).Represents P)
    {cofac : Option ℕ}
    (apart : ∀ h, cofac = some h → e.x = p → ¬PowMeetsInverse h (addOrderOf P)) :
    ∃ r, mulCofac p invert a cofac e = .ok r ∧
      (r.map Int.cast).Represents (cofac.getD 1 • P) := by
  cases cofac with
  | none =>
    refine ⟨e, rfl, ?_⟩
    rwa [Option.getD_none, one_nsmul]
  | some h =>
    obtain ⟨r, run, value⟩ := zpCurveMulMpz_ok two units e stored represents
      fun _ modulus => apart h rfl modulus
    refine ⟨r, ?_, value⟩
    rw [mulCofac, run]

/-- Objects of points are on the curve. -/
theorem PointS.OnCurve.of_represents {e : PointS ℤ} {P : (short (a : ZMod p) b).Point}
    (represents : (e.map Int.cast).Represents P) : e.OnCurve p a b := by
  cases P with
  | zero => exact Or.inl represents
  | some x y on =>
    rw [PointS.represents_some_iff, PointS.map, PointS.mk.injEq] at represents
    right
    rw [represents.2.1, represents.2.2]
    exact short_nonsingular_eq on

/-- Every input may be hashed, with inverses that stop where no value is specified. -/
theorem exists_hashCall (odd : p ≠ 2) (bytes : List UInt8) :
    ∃ call : HashCall p bytes, call.invert = zpInvertUnit p := by
  have char : ringChar (ZMod p) ≠ 2 := by rwa [ZMod.ringChar_zmod_n]
  obtain ⟨nqr, nonresidue⟩ := FiniteField.exists_nonsquare char
  refine ⟨⟨nqr.val, zpInvertUnit p, writeBytes (fun _ => 0) 0 bytes, 0, bytes.length, curveInit,
    ?_, zpInvertUnit_units p, readBytes_write _ _ _, ?_⟩, rfl⟩
  · rwa [Int.cast_natCast, ZMod.natCast_zmod_val]
  · intro i j inside _
    omega

/-- Points above zero have one order. -/
private theorem addOrderOf_above {x y y' : ZMod p} (zero : x = 0)
    (on : (short (a : ZMod p) b).Nonsingular x y) (on' : (short (a : ZMod p) b).Nonsingular 0 y') :
    addOrderOf (Point.some x y on) = addOrderOf (Point.some 0 y' on') := by
  subst zero
  rcases Y_eq_of_X_eq on.1 on'.1 rfl with rfl | opposite
  · rfl
  · rw [← addOrderOf_neg (Point.some 0 y' on'), Point.neg_some]
    simp only [opposite]

variable (odd : p ≠ 2) (smooth : 4 * (a : ZMod p) ^ 3 + 27 * (b : ZMod p) ^ 2 ≠ 0)
  (nonempty : bytes ≠ [])

include odd smooth nonempty

/-- Inputs that do not lead the multiplication from the modulus to a zero. -/
theorem hashesToCurve_of_apart (fits : byteCount p ≤ 2 * maxLimbs) {cofac : Option ℕ}
    (apart : ∀ h, cofac = some h → StopsAt p a b bytes p →
      ∀ y (on : (short (a : ZMod p) b).Nonsingular 0 y),
        ¬PowMeetsInverse h (addOrderOf (Point.some 0 y on))) :
    HashesToCurve p a b cofac bytes := by
  have two : (2 : ZMod p) ≠ 0 := Ring.two_ne_zero (by rwa [ZMod.ringChar_zmod_n])
  have multiplied (call : HashCall p bytes) {x y : ℤ} (stops : StopsAt p a b bytes x)
      (range : 0 ≤ x ∧ x ≤ p) (reduced : LeastResidue p y)
      (on : (short (a : ZMod p) b).Nonsingular x y) :
      ∃ r, mulCofac p call.invert a cofac ⟨false, x, y⟩ = .ok r ∧
        (r.map Int.cast).Represents (cofac.getD 1 • Point.some _ _ on) := by
    have represents : ((⟨false, x, y⟩ : PointS ℤ).map Int.cast).Represents (Point.some _ _ on) :=
      rfl
    apply mulCofac_ok two call.units (fun _ => ⟨range, reduced⟩) represents
    rintro h given (rfl : x = p)
    have zero : ((p : ℤ) : ZMod p) = 0 := by rw [Int.cast_natCast, ZMod.natCast_self]
    have on' : (short (a : ZMod p) b).Nonsingular 0 y := zero ▸ on
    rw [addOrderOf_above zero on on']
    exact apart h given stops y on'
  constructor
  · intro call fuel
    rcases call.run_spec odd fits nonempty cofac fuel with
      out | ⟨memory, x, y, stops, range, reduced, sign, equation, buffer, run⟩
    · exact Or.inl out
    · have on := short_nonsingular_of_smooth two smooth equation
      obtain ⟨r, result, represents⟩ := multiplied call stops range reduced on
      refine Or.inr ⟨memory, r, ?_, PointS.OnCurve.of_represents represents,
        ⟨x, y, on, sign, reduced, represents⟩, buffer⟩
      rw [run, result]
      rfl
  · intro call call' fuel fuel' memory memory' e e' ended ended'
    rcases call.run_spec odd fits nonempty cofac fuel with
      out | ⟨_, x, y, stops, range, reduced, sign, equation, -, run⟩
    · cases out.symm.trans ended
    · rcases call'.run_spec odd fits nonempty cofac fuel' with
        out | ⟨_, x', y', stops', -, reduced', sign', equation', -, run'⟩
      · cases out.symm.trans ended'
      · obtain rfl := stops.unique stops'
        obtain rfl := root_unique odd reduced reduced' sign sign' (equation.trans equation'.symm)
        have on := short_nonsingular_of_smooth two smooth equation
        obtain ⟨r, result, represents⟩ := multiplied call stops range reduced on
        obtain ⟨r', result', represents'⟩ := multiplied call' stops range reduced on
        rw [run, result] at ended
        rw [run', result'] at ended'
        cases ended
        cases ended'
        exact ⟨_, represents, represents'⟩

/-- Other inputs, which end without a specified value. -/
theorem not_hashesToCurve_of_meets (fits : byteCount p ≤ 2 * maxLimbs) {h : ℕ}
    (stops : StopsAt p a b bytes p) {y : ZMod p} {on : (short (a : ZMod p) b).Nonsingular 0 y}
    (meets : PowMeetsInverse h (addOrderOf (Point.some 0 y on))) :
    ¬HashesToCurve p a b (some h) bytes := by
  intro hashes
  have two : (2 : ZMod p) ≠ 0 := Ring.two_ne_zero (by rwa [ZMod.ringChar_zmod_n])
  obtain ⟨call, invert⟩ := exists_hashCall odd bytes
  obtain ⟨fuel, ends⟩ := call.run_ends nonempty (some h) stops
  obtain ⟨memory, x, y', stops', range, reduced, -, equation, -, run⟩ :=
    (call.run_spec odd fits nonempty (some h) fuel).resolve_left ends
  obtain ⟨_, _, ended, -⟩ := (hashes.right call fuel).resolve_left ends
  obtain rfl := stops'.unique stops
  have zero : ((p : ℤ) : ZMod p) = 0 := by rw [Int.cast_natCast, ZMod.natCast_self]
  have on' := short_nonsingular_of_smooth two smooth equation
  have represents : ((⟨false, p, y'⟩ : PointS ℤ).map Int.cast).Represents (Point.some _ _ on') :=
    rfl
  rw [← addOrderOf_above zero on' on] at meets
  obtain ⟨fault, failed⟩ := zpCurveMulMpz_fails two ⟨false, p, y'⟩ (fun _ => ⟨range, reduced⟩)
    represents rfl rfl meets
  rw [run, mulCofac, invert, failed] at ended
  cases ended

end Calls

section Small

private local instance primeSevenHash : Fact (Nat.Prime 7) := ⟨by decide⟩

/-- Three times the stored point `(7, 1)` of `y^2 = x^3 + 1` over `F_7` is the last entry of the
table. -/
private theorem zpCurveMulMpz_seven {invert : ℤ → Except Exit ℤ} (units : InvertsUnits 7 invert) :
    zpCurveMulMpz 7 invert 0 ⟨false, 7, 1⟩ ⟨false, 7, 1⟩ 3 =
      (zpCurveMul 7 invert 0 curveInit ⟨false, 0, 6⟩ ⟨false, 7, 1⟩).map
        (curveSet ⟨false, 7, 1⟩ <| curveSet curveInit ·) := by
  have unit : invert 2 = .ok 4 := units (by decide +kernel)
  have copy : (zpCurveMethods 7 invert 0).mul (zpCurveMethods 7 invert 0).init
      ((zpCurveMethods 7 invert 0).set1 (zpCurveMethods 7 invert 0).init) ⟨false, 7, 1⟩ =
        .ok ⟨false, 7, 1⟩ := rfl
  have double : (zpCurveMethods 7 invert 0).mul (zpCurveMethods 7 invert 0).init ⟨false, 7, 1⟩
      ⟨false, 7, 1⟩ = .ok ⟨false, 0, 6⟩ := by
    show (invert 2 >>= _) = _
    rw [unit]
    rfl
  have table : buildPowWindow (zpCurveMethods 7 invert 0) ⟨false, 7, 1⟩ 2 =
      (zpCurveMul 7 invert 0 curveInit ⟨false, 0, 6⟩ ⟨false, 7, 1⟩).map fun third =>
        [⟨true, 0, 0⟩, ⟨false, 7, 1⟩, ⟨false, 0, 6⟩, third] := by
    rw [buildPowWindow, show 2 ^ 2 - 1 = 3 from rfl]
    simp only [buildPowWindowLoop, copy, double, bind, Except.bind]
    have method : zpCurveMul 7 invert 0 curveInit ⟨false, 0, 6⟩ ⟨false, 7, 1⟩ =
        (zpCurveMethods 7 invert 0).mul (zpCurveMethods 7 invert 0).init ⟨false, 0, 6⟩
          ⟨false, 7, 1⟩ := rfl
    rw [method]
    cases (zpCurveMethods 7 invert 0).mul (zpCurveMethods 7 invert 0).init ⟨false, 0, 6⟩
      ⟨false, 7, 1⟩ <;> rfl
  rw [zpCurveMulMpz, genericPowMpz, if_neg (by decide), show optimalPowWindowSize 3 = 2 by decide]
  simp only [table]
  cases zpCurveMul 7 invert 0 curveInit ⟨false, 0, 6⟩ ⟨false, 7, 1⟩ with
  | error fault => rfl
  | ok third =>
    obtain ⟨infFlag, x, y⟩ := third
    cases infFlag with
    | true => rfl
    | false => rfl

private theorem zpCurveMul_seven {invert : ℤ → Except Exit ℤ} {e : PointS ℤ}
    (run : zpCurveMul 7 invert 0 curveInit ⟨false, 0, 6⟩ ⟨false, 7, 1⟩ = .ok e) :
    e.infFlag = false := by
  change (invert 7 >>= _) = _ at run
  cases inverted : invert 7 with
  | error fault =>
    rw [inverted] at run
    cases run
  | ok v =>
    rw [inverted] at run
    cases run
    rfl

/-- The byte seven is hashed to the modulus seven, above which there is a point. -/
private theorem stopsAt_seven : StopsAt 7 0 1 [7] 7 := by
  refine ⟨0, by decide, by decide, ?_⟩
  intro i before
  exact absurd before (Nat.not_lt_zero i)

private theorem sevenPoint_nonsingular :
    (short ((0 : ℤ) : ZMod 7) ((1 : ℤ) : ZMod 7)).Nonsingular 0 1 :=
  short_nonsingular (by decide) (by decide) (by decide)

private theorem sevenPoint_order : addOrderOf (Point.some 0 1 sevenPoint_nonsingular) = 3 := by
  exact addOrderOf_eq_of_curvePowMpz (a := ((0 : ℤ) : ZMod 7)) (p := ⟨false, 0, 1⟩) (by norm_num)
    (by decide) rfl rfl (by decide)

private local instance primeFiveHash : Fact (Nat.Prime 5) := ⟨by decide⟩

end Small

end Pbc.Ecc
