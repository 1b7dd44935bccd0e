import Mathlib.GroupTheory.OrderOfElement
import Pbc.Arith.Pow

/-!
# Exponentiation of an object of its own form

An object may hold its value in a form that no method writes. The window exponentiation then
meets that form in the second factor only. Its products are right as long as the first factor
is neither the value of the object nor the inverse, which the methods do not recognise.
-/

open Pbc.Gmp Pbc.Number

namespace Pbc.Arith

/-- The methods compute in a group on the objects that they write, and the object `a` of value
`g` may be copied, doubled and multiplied from the left by the values apart from `g`. -/
structure ElementMethods.ImplementsApart {O G : Type*} [Group G] (field : ElementMethods O)
    (written : O → G → Prop) (a : O) (g : G) : Prop where
  set1 : ∀ x, written (field.set1 x) 1
  square : ∀ c {d m}, written d m → ∃ b, field.square c d = .ok b ∧ written b (m * m)
  mul : ∀ c {d e m n}, written d m → written e n →
    ∃ b, field.mul c d e = .ok b ∧ written b (m * n)
  copy : ∀ c {d}, written d 1 → field.mul c d a = .ok a
  double : ∀ c, ∃ b, field.mul c a a = .ok b ∧ written b (g * g)
  next : ∀ c {d m}, written d m → m ≠ 1 → m ≠ g → m ≠ g⁻¹ →
    ∃ b, field.mul c d a = .ok b ∧ written b (m * g)

/-- The products that fail. -/
def ElementMethods.FailsAt {O G : Type*} [Group G] (field : ElementMethods O)
    (written : O → G → Prop) (a : O) (g : G) : Prop :=
  ∀ c {d m}, written d m → m = g ∨ m = g⁻¹ → ∃ fault, field.mul c d a = .error fault

/-- The scan of `element_pow_wind` over the lowest `s` bits opens a window at the last of them;
`wbits` counts the bits of the open window. -/
def opensAtLastBit (n k : ℕ) : ℕ → ℕ → Bool
  | 0, _ => false
  | s + 1, wbits =>
      if wbits = 0 ∧ mpzTstbit n s = false then opensAtLastBit n k s 0
      else if wbits + 1 = k then opensAtLastBit n k s 0
      else if s = 0 then wbits = 0
      else opensAtLastBit n k s (wbits + 1)

/-- The exponentiation multiplies the base by another object of its value or of the inverse:
in the table of windows, or for the last bit. -/
def PowMeetsInverse (n order : ℕ) : Prop :=
  n ≠ 0 ∧ 2 < order ∧ (order < 2 ^ optimalPowWindowSize n ∨
    opensAtLastBit n (optimalPowWindowSize n) (mpzSizeinbase2 n) 0 = true ∧
      (n % order = 0 ∨ n % order = 2))

section Values

variable {O G : Type*} [Group G] {field : ElementMethods O} {written : O → G → Prop} {a : O} {g : G}

/-- The powers that the base meets. -/
theorem pow_eq_base_iff {e : ℕ} (large : 2 < orderOf g) :
    g ^ e = g ∨ g ^ e = g⁻¹ ↔ (e + 1) % orderOf g = 0 ∨ (e + 1) % orderOf g = 2 := by
  have inverse : g ^ e = g⁻¹ ↔ (e + 1) % orderOf g = 0 := by
    rw [← mul_eq_one_iff_eq_inv, ← pow_succ, ← orderOf_dvd_iff_pow_eq_one, Nat.dvd_iff_mod_eq_zero]
  have same : g ^ e = g ↔ (e + 1) % orderOf g = 2 := by
    have two : g ^ (e + 1) = g ^ 2 ↔ (e + 1) % orderOf g = 2 := by
      rw [pow_inj_mod, Nat.mod_eq_of_lt large]
    rw [← two, pow_succ, pow_two, mul_left_inj]
  rw [inverse, same, or_comm]

/-- The powers below the order, from the second one on. -/
theorem pow_apart {e : ℕ} (second : 2 ≤ e) (below : e + 1 < orderOf g) :
    g ^ e ≠ 1 ∧ g ^ e ≠ g ∧ g ^ e ≠ g⁻¹ := by
  have apart : ¬(g ^ e = g ∨ g ^ e = g⁻¹) := by
    rw [pow_eq_base_iff (by omega), Nat.mod_eq_of_lt below]
    omega
  rw [not_or] at apart
  refine ⟨?_, apart.1, apart.2⟩
  intro one
  have multiple := Nat.le_of_dvd (by omega) (orderOf_dvd_of_pow_eq_one one)
  omega

private theorem opensAtLastBit_skip {n k s : ℕ} (bit : n.testBit s = false) :
    opensAtLastBit n k (s + 1) 0 = opensAtLastBit n k s 0 := if_pos ⟨rfl, bit⟩

/-- The loop after the bit at the top of `s + 1` was read into a window of one bit. -/
private theorem opensAtLastBit_open {n k s : ℕ} (two : 2 ≤ k) (bit : n.testBit s = true) :
    opensAtLastBit n k (s + 1) 0 = if s = 0 then true else opensAtLastBit n k s 1 := by
  have set : ¬((0 : ℕ) = 0 ∧ mpzTstbit n s = false) := by
    rintro ⟨-, clear⟩
    exact Bool.false_ne_true (clear.symm.trans bit)
  rw [opensAtLastBit, if_neg set, if_neg (by omega)]
  rfl

private theorem opensAtLastBit_read {n k s wbits : ℕ} (inside : 1 ≤ wbits) :
    opensAtLastBit n k (s + 1) wbits =
      opensAtLastBit n k s (if wbits + 1 = k ∨ s = 0 then 0 else wbits + 1) := by
  rw [opensAtLastBit, if_neg (by omega)]
  by_cases full : wbits + 1 = k
  · rw [if_pos full, if_pos (Or.inl full)]
  · rw [if_neg full]
    cases s with
    | zero => simp only [opensAtLastBit, if_true, decide_eq_false_iff_not]; omega
    | succ s => rw [if_neg (Nat.succ_ne_zero s), if_neg (by omega)]

variable (implements : field.ImplementsApart written a g)

include implements

/-- The table after its second entry, up to the order of the base. -/
theorem buildPowWindowLoop_apart (s : ℕ) {previous : O} {e : ℕ}
    (power : written previous (g ^ e)) (second : 2 ≤ e) (below : e + s < orderOf g) :
    ∃ rest, buildPowWindowLoop field a s previous = .ok rest ∧
      ∀ i, i < s → written (rest.getD i field.init) (g ^ (e + 1 + i)) := by
  induction s generalizing previous e with
  | zero =>
    refine ⟨[], rfl, ?_⟩
    intro i outside
    exact absurd outside (Nat.not_lt_zero i)
  | succ s ih =>
    obtain ⟨one, same, inverse⟩ := pow_apart (g := g) second (by omega)
    obtain ⟨next, multiplied, value⟩ := implements.next field.init power one same inverse
    rw [← pow_succ] at value
    obtain ⟨rest, built, entries⟩ := ih value (by omega) (by omega)
    refine ⟨next :: rest, ?_, ?_⟩
    · simp only [buildPowWindowLoop, multiplied, bind, Except.bind, built, pure, Except.pure]
    · intro i inside
      cases i with
      | zero => exact value
      | succ i =>
        have entry := entries i (by omega)
        rw [show e + 1 + 1 + i = e + 1 + (i + 1) by omega] at entry
        exact entry

/-- A longer table meets the inverse. -/
theorem buildPowWindowLoop_fails (fails : field.FailsAt written a g) (s : ℕ) {previous : O} {e : ℕ}
    (power : written previous (g ^ e)) (second : 2 ≤ e) (below : e < orderOf g)
    (long : orderOf g ≤ e + s) : ∃ fault, buildPowWindowLoop field a s previous = .error fault := by
  induction s generalizing previous e with
  | zero => omega
  | succ s ih =>
    by_cases last : e + 1 = orderOf g
    · have inverse : g ^ e = g ∨ g ^ e = g⁻¹ := by
        rw [pow_eq_base_iff (by omega), last, Nat.mod_self]
        exact Or.inl rfl
      obtain ⟨fault, failed⟩ := fails field.init power inverse
      exact ⟨fault, by simp only [buildPowWindowLoop, failed, bind, Except.bind]⟩
    · obtain ⟨one, same, inverse⟩ := pow_apart (g := g) second (by omega)
      obtain ⟨next, multiplied, value⟩ := implements.next field.init power one same inverse
      rw [← pow_succ] at value
      obtain ⟨fault, failed⟩ := ih value (by omega) (by omega) (by omega)
      exact ⟨fault, by simp only [buildPowWindowLoop, multiplied, failed, bind, Except.bind]⟩

/-- The first three entries, and the loop that is left. -/
private theorem buildPowWindow_start (s : ℕ) : ∃ zero two, written zero (g ^ 0) ∧
    written two (g ^ 2) ∧ (do
      let rest ← buildPowWindowLoop field a (s + 2) zero
      return zero :: rest) = (do
      let rest ← buildPowWindowLoop field a s two
      return zero :: a :: two :: rest : Except Exit (List O)) ∧
    zero = field.set1 field.init := by
  have zero := implements.set1 field.init
  obtain ⟨two, doubled, value⟩ := implements.double field.init
  rw [← pow_two] at value
  refine ⟨_, two, by rwa [pow_zero], value, ?_, rfl⟩
  simp only [buildPowWindowLoop, implements.copy field.init zero, doubled, bind, Except.bind]
  cases buildPowWindowLoop field a s two <;> rfl

/-- The table of a base whose order is large enough. -/
theorem buildPowWindow_apart {k : ℕ} (two : 2 ≤ k) (large : 2 ^ k ≤ orderOf g) :
    ∃ lookup, buildPowWindow field a k = .ok lookup ∧ lookup.getD 1 field.init = a ∧
      ∀ i, i < 2 ^ k → i ≠ 1 → written (lookup.getD i field.init) (g ^ i) := by
  have size : 2 ^ 2 ≤ 2 ^ k := Nat.pow_le_pow_right (by decide) two
  obtain ⟨s, count⟩ := Nat.exists_eq_add_of_le' (show 2 ≤ 2 ^ k - 1 by omega)
  obtain ⟨zero, second, first, value, start, same⟩ := buildPowWindow_start implements s
  obtain ⟨rest, built, entries⟩ := buildPowWindowLoop_apart implements s value le_rfl (by omega)
  refine ⟨zero :: a :: second :: rest, ?_, rfl, ?_⟩
  · rw [buildPowWindow, count, ← same, start, built]
    rfl
  · rintro (_ | _ | _ | i) inside other
    · exact first
    · exact absurd rfl other
    · exact value
    · have entry := entries i (by omega)
      rw [show 2 + 1 + i = i + 3 by omega] at entry
      exact entry

/-- The table of another one. -/
theorem buildPowWindow_fails (fails : field.FailsAt written a g) {k : ℕ} (two : 2 ≤ k)
    (order : 2 < orderOf g) (small : orderOf g < 2 ^ k) :
    ∃ fault, buildPowWindow field a k = .error fault := by
  have size : 2 ^ 2 ≤ 2 ^ k := Nat.pow_le_pow_right (by decide) two
  obtain ⟨s, count⟩ := Nat.exists_eq_add_of_le' (show 2 ≤ 2 ^ k - 1 by omega)
  obtain ⟨zero, second, -, value, start, same⟩ := buildPowWindow_start implements s
  obtain ⟨fault, failed⟩ :=
    buildPowWindowLoop_fails implements fails s value le_rfl order (by omega)
  refine ⟨fault, ?_⟩
  rw [buildPowWindow, count, ← same, start, failed]
  rfl

/-- Without a window of the last bit alone the loop meets no object but those that it wrote,
and otherwise its last step is the product with the base. -/
theorem elementPowWindLoop_apart {n k : ℕ} {lookup : List O} (two : 2 ≤ k)
    (base : lookup.getD 1 field.init = a)
    (entries : ∀ i, i < 2 ^ k → i ≠ 1 → written (lookup.getD i field.init) (g ^ i)) (s : ℕ)
    {result : O} {inword : Bool} {word wbits : ℕ}
    (inv : WindowInvariant written g n k s result inword word wbits)
    (opened : inword → 1 ≤ word ∧ 1 ≤ wbits) :
    if opensAtLastBit n k s (if inword then wbits else 0) then
      n ≠ 0 ∧ ∃ squared, written squared (g ^ (n - 1)) ∧
        elementPowWindLoop field n k lookup s result inword word wbits =
          field.mul squared squared a
    else ∃ final, elementPowWindLoop field n k lookup s result inword word wbits = .ok final ∧
      written final (g ^ n) := by
  induction s generalizing result inword word wbits with
  | zero =>
    obtain ⟨⟨e, value, bits⟩, -, closed⟩ := inv
    rw [closed rfl, if_neg Bool.false_ne_true, Nat.shiftRight_zero] at bits
    exact ⟨result, rfl, bits ▸ value⟩
  | succ s ih =>
    obtain ⟨⟨e, value, bits⟩, bounded, -⟩ := inv
    obtain ⟨squared, square, value⟩ := implements.square result value
    rw [← pow_add, ← two_mul] at value
    rw [elementPowWindLoop, square]
    simp only [bind, Except.bind]
    by_cases scanning : (!inword && !n.testBit s) = true
    · obtain ⟨rfl, bit, double⟩ := word_skip bits scanning
      rw [double] at value
      rw [if_pos scanning]
      have rest := ih (.outside word wbits value) (fun inside => absurd inside Bool.false_ne_true)
      rw [if_neg Bool.false_ne_true] at rest ⊢
      rwa [opensAtLastBit_skip bit]
    · rw [if_neg scanning]
      obtain ⟨append, small, room⟩ := word_step two bits bounded scanning
      cases inword with
      | false =>
        have bit : n.testBit s = true := by simpa using scanning
        simp only [Bool.false_eq_true, if_false] at append small room bits ⊢
        rw [opensAtLastBit_open two bit]
        cases s with
        | zero =>
          rw [if_pos rfl, if_pos rfl, if_pos (Or.inr rfl), base]
          rw [Nat.shiftRight_zero] at append
          refine ⟨by omega, squared, ?_, ?_⟩
          · rwa [append, Nat.add_sub_cancel]
          · cases field.mul squared squared a <;> rfl
        | succ s =>
          have open' : ¬(1 = k ∨ s + 1 = 0) := by omega
          rw [if_neg (Nat.succ_ne_zero s), if_neg open']
          exact ih (.inside value append small room open') fun _ => ⟨le_rfl, le_rfl⟩
      | true =>
        obtain ⟨positive, inside⟩ := opened rfl
        simp only [if_true] at append small room bits ⊢
        rw [opensAtLastBit_read inside]
        by_cases flush : wbits + 1 = k ∨ s = 0
        · rw [if_pos flush, if_pos flush]
          have entry := entries _ (small.trans_le (Nat.pow_le_pow_right (by norm_num) room)) (by omega)
          obtain ⟨multiplied, mul, value⟩ := implements.mul squared value entry
          rw [← pow_add, ← append] at value
          rw [mul]
          exact ih (.outside _ _ value) (fun inside => absurd inside Bool.false_ne_true)
        · rw [if_neg flush, if_neg flush]
          exact ih (.inside value append small room flush) fun _ => ⟨by omega, by omega⟩

/-- The first object of the loop. -/
private theorem windowInvariant_start (n k : ℕ) : WindowInvariant written g n k
    (mpzSizeinbase2 n) (field.set1 field.init) false 0 0 := by
  apply WindowInvariant.outside
  have none : n >>> mpzSizeinbase2 n = 0 := Nat.shiftRight_eq_zero n _ Nat.lt_log2_self
  rw [none, pow_zero]
  exact implements.set1 _

/-- The power, of a base that does not meet its inverse. -/
theorem genericPowMpz_apart (finite : 2 < orderOf g) (x : O) {n : ℕ}
    (apart : ¬PowMeetsInverse n (orderOf g)) :
    ∃ result, (written result (g ^ n) ∨ result = a ∧ g ^ n = g) ∧
      genericPowMpz field x a n = .ok (if n = 0 then field.set1 x else field.set x result) := by
  by_cases zero : n = 0
  · refine ⟨field.set1 x, Or.inl ?_, by rw [genericPowMpz, if_pos zero, if_pos zero]⟩
    rw [zero, pow_zero]
    exact implements.set1 x
  · have two := two_le_optimalPowWindowSize n
    have large : 2 ^ optimalPowWindowSize n ≤ orderOf g := by
      by_contra small
      exact apart ⟨zero, finite, Or.inl (not_le.mp small)⟩
    obtain ⟨lookup, built, base, entries⟩ := buildPowWindow_apart implements two large
    have loop := elementPowWindLoop_apart implements two base entries _
      (windowInvariant_start implements n (optimalPowWindowSize n))
      (fun inside => absurd inside Bool.false_ne_true)
    have run {final : O} (looped : elementPowWindLoop field n (optimalPowWindowSize n) lookup
        (mpzSizeinbase2 n) (field.set1 field.init) false 0 0 = .ok final) :
        genericPowMpz field x a n = .ok (if n = 0 then field.set1 x else field.set x final) := by
      simp only [genericPowMpz, elementPowWind, if_neg zero, built, bind, Except.bind, looped, pure,
        Except.pure]
    rw [if_neg Bool.false_ne_true] at loop
    split at loop
    · next alone =>
      obtain ⟨-, squared, value, last⟩ := loop
      have distinct : ¬(g ^ (n - 1) = g ∨ g ^ (n - 1) = g⁻¹) := by
        rw [pow_eq_base_iff finite, Nat.sub_add_cancel (Nat.pos_of_ne_zero zero)]
        intro meets
        exact apart ⟨zero, finite, Or.inr ⟨alone, meets⟩⟩
      have power : g ^ (n - 1) * g = g ^ n := by
        rw [← pow_succ, Nat.sub_add_cancel (Nat.pos_of_ne_zero zero)]
      by_cases one : g ^ (n - 1) = 1
      · rw [one] at value
        rw [one, one_mul] at power
        exact ⟨a, Or.inr ⟨rfl, power.symm⟩, run (last.trans (implements.copy squared value))⟩
      · rw [not_or] at distinct
        obtain ⟨final, multiplied, value⟩ :=
          implements.next squared value one distinct.1 distinct.2
        rw [power] at value
        exact ⟨final, Or.inl value, run (last.trans multiplied)⟩
    · obtain ⟨final, looped, value⟩ := loop
      exact ⟨final, Or.inl value, run looped⟩

/-- The power fails for the other bases. -/
theorem genericPowMpz_fails (fails : field.FailsAt written a g) (x : O) {n : ℕ}
    (meets : PowMeetsInverse n (orderOf g)) :
    ∃ fault, genericPowMpz field x a n = .error fault := by
  obtain ⟨zero, finite, cause⟩ := meets
  have two := two_le_optimalPowWindowSize n
  by_cases small : orderOf g < 2 ^ optimalPowWindowSize n
  · obtain ⟨fault, failed⟩ := buildPowWindow_fails implements fails two finite small
    exact ⟨fault, by simp only [genericPowMpz, if_neg zero, failed, bind, Except.bind]⟩
  · obtain ⟨alone, meets⟩ := cause.resolve_left small
    obtain ⟨lookup, built, base, entries⟩ :=
      buildPowWindow_apart implements two (not_lt.mp small)
    have loop := elementPowWindLoop_apart implements two base entries _
      (windowInvariant_start implements n (optimalPowWindowSize n))
      (fun inside => absurd inside Bool.false_ne_true)
    rw [if_neg Bool.false_ne_true, if_pos alone] at loop
    obtain ⟨-, squared, value, last⟩ := loop
    rw [← Nat.sub_add_cancel (Nat.pos_of_ne_zero zero), ← pow_eq_base_iff finite] at meets
    obtain ⟨fault, failed⟩ := fails squared value meets
    refine ⟨fault, ?_⟩
    simp only [genericPowMpz, elementPowWind, if_neg zero, built, bind, Except.bind, last, failed]

end Values

end Pbc.Arith
