import Pbc.Arith.Field
import Pbc.Gmp.Mpz

/-!
# Sliding-window exponentiation

`element_pow_mpz` runs over any structure whose objects are squared, multiplied
and assigned through a method table. The routines below keep the destination of
every call, since some structures leave part of it unchanged. Over objects that
represent the values of a monoid the result represents the power.
-/

open Pbc.Gmp Pbc.Number

namespace Pbc.Arith

/-- The methods that exponentiation calls; the first argument of the last four
is the destination. -/
structure ElementMethods (O : Type*) where
  init : O
  set1 : O → O
  set : O → O → O
  square : O → O → Except Exit O
  mul : O → O → O → Except Exit O

/-- `optimal_pow_window_size`. -/
def optimalPowWindowSize (n : ℕ) : ℕ :=
  let expBits := mpzSizeinbase2 n
  if expBits > 9065 then 8
  else if expBits > 3529 then 7
  else if expBits > 1324 then 6
  else if expBits > 474 then 5
  else if expBits > 157 then 4
  else if expBits > 47 then 3
  else 2

section Operations

variable {O : Type*} (field : ElementMethods O)

/-- The entries of the table after `previous`. -/
def buildPowWindowLoop (a : O) : ℕ → O → Except Exit (List O)
  | 0, _ => .ok []
  | s + 1, previous => do
      let next ← field.mul field.init previous a
      let rest ← buildPowWindowLoop a s next
      return next :: rest

/-- `build_pow_window`. -/
def buildPowWindow (a : O) (k : ℕ) : Except Exit (List O) := do
  let first := field.set1 field.init
  let rest ← buildPowWindowLoop field a (2 ^ k - 1) first
  return first :: rest

/-- The loop of `element_pow_wind` over the lowest `s` bits. -/
def elementPowWindLoop (n k : ℕ) (lookup : List O) : ℕ → O → Bool → ℕ → ℕ → Except Exit O
  | 0, result, _, _, _ => .ok result
  | s + 1, result, inword, word, wbits => do
      let result ← field.square result result
      let bit := mpzTstbit n s
      if !inword && !bit then elementPowWindLoop n k lookup s result inword word wbits
      else
        let word := if inword then 2 * word + bit.toNat else 1
        let wbits := if inword then wbits + 1 else 1
        if wbits = k ∨ s = 0 then
          let result ← field.mul result result (lookup.getD word field.init)
          elementPowWindLoop n k lookup s result false word wbits
        else elementPowWindLoop n k lookup s result true word wbits

/-- `element_pow_wind`. -/
def elementPowWind (x : O) (n k : ℕ) (lookup : List O) : Except Exit O :=
  if n = 0 then .ok (field.set1 x)
  else do
    let result := field.set1 field.init
    let result ← elementPowWindLoop field n k lookup (mpzSizeinbase2 n) result false 0 0
    return field.set x result

/-- `generic_pow_mpz`, called as `element_pow_mpz`. -/
def genericPowMpz (x a : O) (n : ℕ) : Except Exit O :=
  if n = 0 then .ok (field.set1 x)
  else do
    let k := optimalPowWindowSize n
    let lookup ← buildPowWindow field a k
    elementPowWind field x n k lookup

/-- The bits that `mpz_tstbit` reads below the size of an integer. A negative integer shows
those of its two's complement. -/
def exponentBits (n : ℤ) : ℕ := (n % 2 ^ mpzSizeinbase2 n.natAbs).toNat

/-- `generic_pow_mpz` for an exponent of either sign. -/
def genericPowMpzInt (x a : O) (n : ℤ) : Except Exit O :=
  if n = 0 then .ok (field.set1 x)
  else do
    let k := optimalPowWindowSize n.natAbs
    let lookup ← buildPowWindow field a k
    let result := field.set1 field.init
    let result ← elementPowWindLoop field (exponentBits n) k lookup (mpzSizeinbase2 n.natAbs) result
      false 0 0
    return field.set x result

end Operations

/-- The objects represent values of a monoid, and the methods compute there. -/
structure ElementMethods.Implements {O M : Type*} [Monoid M] (field : ElementMethods O)
    (represents : O → M → Prop) : Prop where
  set1 : ∀ x, represents (field.set1 x) 1
  square : ∀ c {a g}, represents a g → ∃ b, field.square c a = .ok b ∧ represents b (g * g)
  mul : ∀ c {a b g h}, represents a g → represents b h →
    ∃ d, field.mul c a b = .ok d ∧ represents d (g * h)

section Values

variable {O M : Type*} [Monoid M] {field : ElementMethods O} {represents : O → M → Prop}

theorem two_le_optimalPowWindowSize (n : ℕ) : 2 ≤ optimalPowWindowSize n := by
  unfold optimalPowWindowSize
  dsimp only
  split_ifs <;> omega

/-- The table holds the powers from the one after `previous` on. -/
theorem buildPowWindowLoop_ok (implements : field.Implements represents) {a : O} {g : M}
    (base : represents a g) (s : ℕ) {previous : O} {e : ℕ} (power : represents previous (g ^ e)) :
    ∃ rest, buildPowWindowLoop field a s previous = .ok rest ∧
      ∀ i, i < s → represents (rest.getD i field.init) (g ^ (e + 1 + i)) := by
  induction s generalizing previous e with
  | zero => exact ⟨[], rfl, fun i outside => absurd outside (Nat.not_lt_zero i)⟩
  | succ s ih =>
    obtain ⟨next, multiplied, value⟩ := implements.mul field.init power base
    rw [← pow_succ] at value
    obtain ⟨rest, built, entries⟩ := ih value
    refine ⟨next :: rest, ?_, ?_⟩
    · simp only [buildPowWindowLoop, multiplied, bind, Except.bind, built, pure, Except.pure]
    · intro i inside
      cases i with
      | zero => exact value
      | succ i =>
        have entry := entries i (by omega)
        rw [show e + 1 + 1 + i = e + 1 + (i + 1) by omega] at entry
        exact entry

/-- The table holds every power below `2^k`. -/
theorem buildPowWindow_ok (implements : field.Implements represents) {a : O} {g : M}
    (base : represents a g) (k : ℕ) :
    ∃ lookup, buildPowWindow field a k = .ok lookup ∧
      ∀ i, i < 2 ^ k → represents (lookup.getD i field.init) (g ^ i) := by
  have first : represents (field.set1 field.init) (g ^ 0) := by
    rw [pow_zero]
    exact implements.set1 _
  obtain ⟨rest, built, entries⟩ := buildPowWindowLoop_ok implements base (2 ^ k - 1) first
  refine ⟨field.set1 field.init :: rest, ?_, ?_⟩
  · simp only [buildPowWindow, built, bind, Except.bind, pure, Except.pure]
  · intro i inside
    cases i with
    | zero => exact first
    | succ i =>
      have entry := entries i (by omega)
      rw [show 0 + 1 + i = i + 1 by omega] at entry
      exact entry

/-- The bits of `n` from `s` on are the exponent of `result` plus the open word. -/
structure WindowInvariant (represents : O → M → Prop) (g : M) (n k s : ℕ) (result : O)
    (inword : Bool) (word wbits : ℕ) : Prop where
  value : ∃ e, represents result (g ^ e) ∧ n >>> s = if inword then e + word else e
  bounded : inword → word < 2 ^ wbits ∧ wbits < k
  closed : s = 0 → inword = false

/-- Between words the exponent is the number made of the bits read. -/
theorem WindowInvariant.outside {g : M} {n k s : ℕ} {result : O} (word wbits : ℕ)
    (value : represents result (g ^ (n >>> s))) :
    WindowInvariant represents g n k s result false word wbits :=
  ⟨⟨_, value, rfl⟩, fun inside => absurd inside Bool.false_ne_true, fun _ => rfl⟩

/-- Inside a word that is not full, with bits left to read. -/
theorem WindowInvariant.inside {g : M} {n k s e : ℕ} {result : O} {word wbits : ℕ}
    (value : represents result (g ^ e)) (bits : n >>> s = e + word) (small : word < 2 ^ wbits)
    (room : wbits ≤ k) (unfinished : ¬(wbits = k ∨ s = 0)) :
    WindowInvariant represents g n k s result true word wbits := by
  rw [not_or] at unfinished
  refine ⟨⟨e, value, bits⟩, ?_, ?_⟩
  · intro _
    exact ⟨small, by omega⟩
  · intro last
    exact absurd last unfinished.2

/-- A zero between words only doubles the exponent. -/
theorem word_skip {n s e word : ℕ} {inword : Bool}
    (value : n >>> (s + 1) = if inword then e + word else e)
    (scanning : (!inword && !n.testBit s) = true) :
    inword = false ∧ n.testBit s = false ∧ 2 * e = n >>> s := by
  rw [Bool.and_eq_true, Bool.not_eq_true', Bool.not_eq_true'] at scanning
  obtain ⟨rfl, bit⟩ := scanning
  have append := shiftRight_eq_append n s
  rw [if_neg Bool.false_ne_true] at value
  rw [bit, Bool.toNat_false, add_zero, value] at append
  exact ⟨rfl, bit, append.symm⟩

/-- A bit joins the open word, or opens one. -/
theorem word_step {n k s e word wbits : ℕ} {inword : Bool} (two : 2 ≤ k)
    (value : n >>> (s + 1) = if inword then e + word else e)
    (bounded : inword → word < 2 ^ wbits ∧ wbits < k)
    (reading : ¬(!inword && !n.testBit s) = true) :
    n >>> s = 2 * e + (if inword then 2 * word + (n.testBit s).toNat else 1) ∧
      (if inword then 2 * word + (n.testBit s).toNat else 1) <
        2 ^ (if inword then wbits + 1 else 1) ∧
      (if inword then wbits + 1 else 1) ≤ k := by
  have append := shiftRight_eq_append n s
  cases inword with
  | false =>
    have bit : n.testBit s = true := by simpa using reading
    simp only [Bool.false_eq_true, if_false, bit, Bool.toNat_true] at value append ⊢
    omega
  | true =>
    simp only [if_true] at value ⊢
    have room := bounded rfl
    have bit := (n.testBit s).toNat_lt
    rw [pow_succ]
    omega

theorem elementPowWindLoop_ok (implements : field.Implements represents) {g : M} {n k : ℕ}
    {lookup : List O} (two : 2 ≤ k)
    (entries : ∀ i, i < 2 ^ k → represents (lookup.getD i field.init) (g ^ i)) (s : ℕ) {result : O}
    {inword : Bool} {word wbits : ℕ}
    (inv : WindowInvariant represents g n k s result inword word wbits) :
    ∃ final, elementPowWindLoop field n k lookup s result inword word wbits = .ok final ∧
      represents final (g ^ n) := by
  induction s generalizing result inword word wbits with
  | zero =>
    obtain ⟨⟨e, value, bits⟩, -, closed⟩ := inv
    rw [closed rfl, if_neg Bool.false_ne_true, Nat.shiftRight_zero] at bits
    exact ⟨result, rfl, bits ▸ value⟩
  | succ s ih =>
    obtain ⟨⟨e, value, bits⟩, bounded, -⟩ := inv
    obtain ⟨squared, square, value⟩ := implements.square result value
    rw [← pow_add, ← two_mul] at value
    rw [elementPowWindLoop, square]
    simp only [bind, Except.bind]
    by_cases scanning : (!inword && !n.testBit s) = true
    · obtain ⟨rfl, -, double⟩ := word_skip bits scanning
      rw [double] at value
      rw [if_pos scanning]
      exact ih (.outside word wbits value)
    · rw [if_neg scanning]
      obtain ⟨append, small, room⟩ := word_step two bits bounded scanning
      generalize (if inword then 2 * word + (n.testBit s).toNat else 1) = word' at *
      generalize (if inword then wbits + 1 else 1) = wbits' at *
      by_cases flush : wbits' = k ∨ s = 0
      · rw [if_pos flush]
        have entry := entries word' (small.trans_le (Nat.pow_le_pow_right (by norm_num) room))
        obtain ⟨multiplied, mul, value⟩ := implements.mul squared value entry
        rw [← pow_add, ← append] at value
        rw [mul]
        exact ih (.outside word' wbits' value)
      · rw [if_neg flush]
        exact ih (.inside value append small room flush)

theorem exponentBits_lt (n : ℤ) : exponentBits n < 2 ^ mpzSizeinbase2 n.natAbs := by
  have upper := Int.emod_lt_of_pos n (b := 2 ^ mpzSizeinbase2 n.natAbs) (by positivity)
  have lower := Int.emod_nonneg n (b := 2 ^ mpzSizeinbase2 n.natAbs) (by positivity)
  have cast : ((2 ^ mpzSizeinbase2 n.natAbs : ℕ) : ℤ) = 2 ^ mpzSizeinbase2 n.natAbs := by push_cast; rfl
  rw [exponentBits]
  omega

/-- The bits of a nonnegative exponent are its own. -/
theorem exponentBits_natCast (n : ℕ) : exponentBits n = n := by
  have small : n < 2 ^ mpzSizeinbase2 n := Nat.lt_log2_self
  have below : (n : ℤ) < 2 ^ mpzSizeinbase2 n := by exact_mod_cast small
  rw [exponentBits, Int.natAbs_natCast, Int.emod_eq_of_lt (Int.natCast_nonneg n) below,
    Int.toNat_natCast]

/-- A negative exponent counts from the power of two above it. -/
theorem exponentBits_neg {n : ℤ} (negative : n < 0) :
    (exponentBits n : ℤ) = 2 ^ mpzSizeinbase2 n.natAbs + n := by
  have small : n.natAbs < 2 ^ mpzSizeinbase2 n.natAbs := Nat.lt_log2_self
  have below : (n.natAbs : ℤ) < 2 ^ mpzSizeinbase2 n.natAbs := by exact_mod_cast small
  rw [exponentBits, Int.toNat_of_nonneg (Int.emod_nonneg _ (by positivity)),
    ← Int.add_emod_left, Int.emod_eq_of_lt (by omega) (by omega)]

/-- With an exponent of either sign the result represents the power by the bits read. -/
theorem genericPowMpzInt_ok (implements : field.Implements represents) (x : O) {a : O} {g : M}
    (base : represents a g) (n : ℤ) :
    ∃ result, represents result (g ^ exponentBits n) ∧
      genericPowMpzInt field x a n = .ok (if n = 0 then field.set1 x else field.set x result) := by
  by_cases zero : n = 0
  · refine ⟨field.set1 x, ?_, by rw [genericPowMpzInt, if_pos zero, if_pos zero]⟩
    rw [zero, show exponentBits 0 = 0 from exponentBits_natCast 0, pow_zero]
    exact implements.set1 x
  · obtain ⟨lookup, built, entries⟩ :=
      buildPowWindow_ok implements base (optimalPowWindowSize n.natAbs)
    have start : represents (field.set1 field.init)
        (g ^ (exponentBits n >>> mpzSizeinbase2 n.natAbs)) := by
      rw [Nat.shiftRight_eq_zero _ _ (exponentBits_lt n), pow_zero]
      exact implements.set1 _
    obtain ⟨final, looped, value⟩ := elementPowWindLoop_ok implements
      (two_le_optimalPowWindowSize n.natAbs) entries _ (.outside 0 0 start)
    refine ⟨final, value, ?_⟩
    simp only [genericPowMpzInt, if_neg zero, built, bind, Except.bind, looped, pure, Except.pure]

/-- The two texts agree on nonnegative exponents. -/
theorem genericPowMpzInt_natCast (x a : O) (n : ℕ) :
    genericPowMpzInt field x a n = genericPowMpz field x a n := by
  by_cases zero : n = 0
  · rw [genericPowMpz, genericPowMpzInt, if_pos zero, if_pos (by exact_mod_cast zero)]
  · rw [genericPowMpz, genericPowMpzInt, if_neg zero, if_neg (by exact_mod_cast zero),
      exponentBits_natCast, Int.natAbs_natCast]
    simp only [elementPowWind, if_neg zero]

/-- Exponentiation assigns an object that represents the power. -/
theorem genericPowMpz_ok (implements : field.Implements represents) (x : O) {a : O} {g : M}
    (base : represents a g) (n : ℕ) :
    ∃ result, represents result (g ^ n) ∧
      genericPowMpz field x a n = .ok (if n = 0 then field.set1 x else field.set x result) := by
  have run := genericPowMpzInt_ok implements x base n
  simp only [exponentBits_natCast, genericPowMpzInt_natCast, Int.natCast_eq_zero] at run
  exact run

/-- Where assignment keeps what an object represents, so does the result. -/
theorem genericPowMpz_represents (implements : field.Implements represents)
    (keeps : ∀ c {a g}, represents a g → represents (field.set c a) g) (x : O) {a : O} {g : M}
    (base : represents a g) (n : ℕ) :
    ∃ r, genericPowMpz field x a n = .ok r ∧ represents r (g ^ n) := by
  obtain ⟨result, value, run⟩ := genericPowMpz_ok implements x base n
  refine ⟨_, run, ?_⟩
  split
  · next zero =>
    rw [zero, pow_zero]
    exact implements.set1 x
  · exact keeps x value

end Values

section Rings

variable (K : Type*) [CommRing K] [FieldMethods K]

/-- The method table of a coefficient structure, where a destination is
overwritten whole. -/
def coefficientMethods : ElementMethods K where
  init := 0
  set1 _ := 1
  set _ a := a
  square _ a := .ok (FieldMethods.square a)
  mul _ a b := .ok (a * b)

theorem coefficientMethods_implements :
    (coefficientMethods K).Implements fun a g : K => a = g where
  set1 _ := rfl
  square _ {a g} same := ⟨_, rfl, by rw [FieldMethods.square_eq, same]⟩
  mul _ {a b g h} left right := ⟨_, rfl, by rw [left, right]⟩

variable {K}

/-- `element_pow_mpz` in a coefficient structure. -/
def elementPowMpz (x a : K) (n : ℕ) : Except Exit K := genericPowMpz (coefficientMethods K) x a n

theorem elementPowMpz_ok (x a : K) (n : ℕ) : elementPowMpz x a n = .ok (a ^ n) := by
  obtain ⟨result, value, power⟩ :=
    genericPowMpz_ok (coefficientMethods_implements K) x (rfl : a = a) n
  rw [elementPowMpz, power]
  split
  · next zero => rw [zero, pow_zero]; rfl
  · exact congrArg Except.ok value

end Rings

end Pbc.Arith
