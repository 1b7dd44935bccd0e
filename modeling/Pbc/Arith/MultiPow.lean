import Pbc.Arith.PowCalls

/-!
# Products of powers

Two or three exponents are walked together from the top bit of the longest, with the products of
the bases at hand. In a commutative monoid the routines leave the product of the powers in their
destination, which may be any of the bases.
-/

open Pbc.Gmp Pbc.Number Pbc.Algebra

namespace Pbc.Arith

section Operations

variable {ι : Type*}

/-- The loop of `element_pow2_mpz` over the lowest `s` bits. -/
def elementPow2LoopCalls (a1 a2 : ι) (n1 n2 : ℕ) : ℕ → List (Call (PowCell ι))
  | 0 => []
  | s + 1 =>
      let b1 := mpzTstbit n1 s
      let b2 := mpzTstbit n2 s
      let rest := elementPow2LoopCalls a1 a2 n1 n2 s
      .mul .result .result .result ::
        if b1 && b2 then .mul .result .result .product :: rest
        else if b1 then .mul .result .result (.object a1) :: rest
        else if b2 then .mul .result .result (.object a2) :: rest
        else rest

/-- `element_pow2_mpz`. -/
def elementPow2Calls (x a1 : ι) (n1 : ℕ) (a2 : ι) (n2 : ℕ) : List (Call (PowCell ι)) :=
  if n1 = 0 ∧ n2 = 0 then [.set1 (.object x)]
  else
    let s1 := mpzSizeinbase2 n1 - 1
    let s2 := mpzSizeinbase2 n2 - 1
    let s := if s1 > s2 then s1 else s2
    .set1 .result :: ((.mul .product (.object a1) (.object a2) ::
      elementPow2LoopCalls a1 a2 n1 n2 (s + 1)) ++ [.set (.object x) .result])

/-- The table of `element_pow3_mpz`. -/
def elementPow3Table (a1 a2 a3 : ι) : List (Call (PowCell ι)) :=
  [.set1 (.lookup 0), .set (.lookup 1) (.object a1), .set (.lookup 2) (.object a2),
    .set (.lookup 4) (.object a3), .mul (.lookup 3) (.object a1) (.object a2),
    .mul (.lookup 5) (.object a1) (.object a3), .mul (.lookup 6) (.object a2) (.object a3),
    .mul (.lookup 7) (.lookup 6) (.object a1)]

/-- The loop of `element_pow3_mpz` over the lowest `s` bits. -/
def elementPow3LoopCalls (n1 n2 n3 : ℕ) : ℕ → List (Call (PowCell ι))
  | 0 => []
  | s + 1 =>
      let b := (mpzTstbit n1 s).toNat + ((mpzTstbit n2 s).toNat <<< 1) +
        ((mpzTstbit n3 s).toNat <<< 2)
      .mul .result .result .result :: .mul .result .result (.lookup b) ::
        elementPow3LoopCalls n1 n2 n3 s

/-- `element_pow3_mpz`. -/
def elementPow3Calls (x a1 : ι) (n1 : ℕ) (a2 : ι) (n2 : ℕ) (a3 : ι) (n3 : ℕ) :
    List (Call (PowCell ι)) :=
  if n1 = 0 ∧ n2 = 0 ∧ n3 = 0 then [.set1 (.object x)]
  else
    let s1 := mpzSizeinbase2 n1 - 1
    let s2 := mpzSizeinbase2 n2 - 1
    let s3 := mpzSizeinbase2 n3 - 1
    let s := if s1 > s2 then if s1 > s3 then s1 else s3 else if s2 > s3 then s2 else s3
    .set1 .result :: ((elementPow3Table a1 a2 a3 ++ elementPow3LoopCalls n1 n2 n3 (s + 1)) ++
      [.set (.object x) .result])

end Operations

section Tables

variable {ι M : Type*}

/-- The cells with the entries of a table. -/
def withLookup (s : PowCell ι → Option M) (e : ℕ → Option M) : PowCell ι → Option M
  | .lookup j => e j
  | c => s c

@[simp] theorem withLookup_lookup (s : PowCell ι → Option M) (e : ℕ → Option M) (j : ℕ) :
    withLookup s e (.lookup j) = e j := rfl

theorem withLookup_self (s : PowCell ι → Option M) : withLookup s (fun j => s (.lookup j)) = s := by
  funext c
  cases c <;> rfl

theorem withLookup_update [DecidableEq ι] (s : PowCell ι → Option M) (e : ℕ → Option M) (j : ℕ)
    (y : Option M) :
    Function.update (withLookup s e) (.lookup j) y = withLookup s (Function.update e j y) := by
  funext c
  cases c with
  | lookup k =>
    rw [withLookup_lookup]
    by_cases same : k = j
    · rw [same, Function.update_self, Function.update_self]
    · rw [Function.update_of_ne fun equal => same (PowCell.lookup.inj equal),
        Function.update_of_ne same, withLookup_lookup]
  | _ => exact Function.update_of_ne (fun same => by cases same) _ _

end Tables

section Values

variable {ι M : Type*} [DecidableEq ι] [CommMonoid M] {squared : M → M}
  {s : PowCell ι → Option M} {g1 g2 g3 : M}

/-- One more bit of an exponent. -/
theorem pow_shiftRight (g : M) (n i : ℕ) :
    g ^ (n >>> (i + 1)) * g ^ (n >>> (i + 1)) * g ^ (n.testBit i).toNat = g ^ (n >>> i) := by
  rw [shiftRight_eq_append n i, pow_add, two_mul, pow_add]

/-- Above its bits an exponent contributes nothing. -/
theorem pow_shiftRight_of_le (g : M) {n i : ℕ} (above : mpzSizeinbase2 n ≤ i) :
    g ^ (n >>> i) = 1 := by
  have small : n < 2 ^ mpzSizeinbase2 n := Nat.lt_log2_self
  rw [Nat.shiftRight_eq_zero _ _ (small.trans_le (Nat.pow_le_pow_right (by norm_num) above)),
    pow_zero]

/-- A square and the product of the bases that have a bit. -/
private theorem turn_two (g1 g2 : M) (n1 n2 i : ℕ) :
    g1 ^ (n1 >>> (i + 1)) * g2 ^ (n2 >>> (i + 1)) * (g1 ^ (n1 >>> (i + 1)) * g2 ^ (n2 >>> (i + 1))) *
      (g1 ^ (n1.testBit i).toNat * g2 ^ (n2.testBit i).toNat) =
        g1 ^ (n1 >>> i) * g2 ^ (n2 >>> i) := by
  rw [← pow_shiftRight g1 n1 i, ← pow_shiftRight g2 n2 i, mul_mul_mul_comm (g1 ^ _),
    mul_mul_mul_comm (g1 ^ _ * _)]

/-- The loop leaves the product of two powers in its result. -/
theorem elementPow2LoopCalls_run (squared : M → M) {a1 a2 : ι} (n1 n2 : ℕ) (base1 : s (.object a1) = some g1)
    (base2 : s (.object a2) = some g2) (both : s .product = some (g1 * g2)) (i : ℕ) :
    runCalls squared (elementPow2LoopCalls a1 a2 n1 n2 i)
      (Function.update s .result (some (g1 ^ (n1 >>> i) * g2 ^ (n2 >>> i)))) =
        some (Function.update s .result (some (g1 ^ n1 * g2 ^ n2))) := by
  induction i with
  | zero => rw [elementPow2LoopCalls, runCalls_nil, Nat.shiftRight_zero, Nat.shiftRight_zero]
  | succ i ih =>
    have turn := turn_two g1 g2 n1 n2 i
    have own : ∀ r, Function.update s .result (some r) .result = some r := fun r =>
      Function.update_self _ _ _
    have both' : ∀ r, Function.update s .result r .product = some (g1 * g2) := fun r =>
      (Function.update_of_ne (fun same => by cases same) _ _).trans both
    have base1' : ∀ r, Function.update s .result r (.object a1) = some g1 := fun r =>
      (update_result_object s r a1).trans base1
    have base2' : ∀ r, Function.update s .result r (.object a2) = some g2 := fun r =>
      (update_result_object s r a2).trans base2
    rw [elementPow2LoopCalls, runCalls_mul (own _) (own _), Function.update_idem]
    cases bit1 : n1.testBit i with
    | false =>
      cases bit2 : n2.testBit i with
      | false =>
        simp only [mpzTstbit, bit1, bit2, Bool.and_false, Bool.false_eq_true, if_false]
        rw [bit1, bit2, Bool.toNat_false, pow_zero, pow_zero, mul_one, mul_one] at turn
        rw [turn]
        exact ih
      | true =>
        simp only [mpzTstbit, bit1, bit2, Bool.and_true, Bool.false_eq_true, if_false, if_true]
        rw [bit1, bit2, Bool.toNat_false, Bool.toNat_true, pow_zero, pow_one, one_mul] at turn
        rw [runCalls_mul (own _) (base2' _), Function.update_idem, turn]
        exact ih
    | true =>
      cases bit2 : n2.testBit i with
      | false =>
        simp only [mpzTstbit, bit1, bit2, Bool.and_false, Bool.false_eq_true, if_false, if_true]
        rw [bit1, bit2, Bool.toNat_false, Bool.toNat_true, pow_zero, pow_one, mul_one] at turn
        rw [runCalls_mul (own _) (base1' _), Function.update_idem, turn]
        exact ih
      | true =>
        simp only [mpzTstbit, bit1, bit2, Bool.and_true, if_true]
        rw [bit1, bit2, Bool.toNat_true, pow_one, pow_one] at turn
        rw [runCalls_mul (own _) (both' _), Function.update_idem, turn]
        exact ih

/-- The entries of `element_pow3_mpz`, as they are computed. -/
def pow3Entries (g1 g2 g3 : M) (e : ℕ → Option M) : ℕ → Option M
  | 0 => some 1
  | 1 => some g1
  | 2 => some g2
  | 3 => some (g1 * g2)
  | 4 => some g3
  | 5 => some (g1 * g3)
  | 6 => some (g2 * g3)
  | 7 => some (g2 * g3 * g1)
  | j => e j

theorem elementPow3Table_run (squared : M → M) {a1 a2 a3 : ι} (base1 : s (.object a1) = some g1)
    (base2 : s (.object a2) = some g2) (base3 : s (.object a3) = some g3) :
    runCalls squared (elementPow3Table a1 a2 a3) s =
      some (withLookup s (pow3Entries g1 g2 g3 fun j => s (.lookup j))) := by
  conv_lhs => rw [← withLookup_self s]
  have first : ∀ e, withLookup s e (.object a1) = some g1 := fun _ => base1
  have second : ∀ e, withLookup s e (.object a2) = some g2 := fun _ => base2
  have third : ∀ e, withLookup s e (.object a3) = some g3 := fun _ => base3
  have last : ∀ (e : ℕ → Option M) (y : Option M),
      withLookup s (Function.update e 6 y) (.lookup 6) = y := fun e y =>
    (withLookup_lookup s _ 6).trans (Function.update_self 6 y e)
  rw [elementPow3Table, runCalls_set1, withLookup_update, runCalls_set (first _), withLookup_update,
    runCalls_set (second _), withLookup_update, runCalls_set (third _), withLookup_update,
    runCalls_mul (first _) (second _), withLookup_update, runCalls_mul (first _) (third _),
    withLookup_update, runCalls_mul (second _) (third _), withLookup_update,
    runCalls_mul (last _ _) (first _), withLookup_update, runCalls_nil]
  congr 2
  funext j
  match j with
  | 0 | 1 | 2 | 3 | 4 | 5 | 6 | 7 => rfl
  | j + 8 => rfl

/-- The entry of an index is the product of the bases that it has a bit for. -/
theorem pow3Entries_bits (g1 g2 g3 : M) (e : ℕ → Option M) (b1 b2 b3 : Bool) :
    pow3Entries g1 g2 g3 e (b1.toNat + (b2.toNat <<< 1) + (b3.toNat <<< 2)) =
      some (g1 ^ b1.toNat * g2 ^ b2.toNat * g3 ^ b3.toNat) := by
  have turned : g2 * g3 * g1 = g1 * g2 * g3 := by rw [mul_comm, mul_assoc]
  cases b1 <;> cases b2 <;> cases b3 <;> simp [pow3Entries, turned]

/-- A square and the product of the bases that have a bit. -/
private theorem turn_three (n1 n2 n3 i : ℕ) :
    g1 ^ (n1 >>> (i + 1)) * g2 ^ (n2 >>> (i + 1)) * g3 ^ (n3 >>> (i + 1)) *
        (g1 ^ (n1 >>> (i + 1)) * g2 ^ (n2 >>> (i + 1)) * g3 ^ (n3 >>> (i + 1))) *
      (g1 ^ (n1.testBit i).toNat * g2 ^ (n2.testBit i).toNat * g3 ^ (n3.testBit i).toNat) =
        g1 ^ (n1 >>> i) * g2 ^ (n2 >>> i) * g3 ^ (n3 >>> i) := by
  rw [← turn_two g1 g2 n1 n2 i, ← pow_shiftRight g3 n3 i, mul_mul_mul_comm (_ * _) (g3 ^ _),
    mul_mul_mul_comm (_ * _) (g3 ^ _ * _)]

/-- The loop leaves the product of three powers in its result. -/
theorem elementPow3LoopCalls_run (squared : M → M) (n1 n2 n3 : ℕ)
    (entries : ∀ b1 b2 b3 : Bool, s (.lookup (b1.toNat + (b2.toNat <<< 1) + (b3.toNat <<< 2))) =
      some (g1 ^ b1.toNat * g2 ^ b2.toNat * g3 ^ b3.toNat)) (i : ℕ) :
    runCalls squared (elementPow3LoopCalls n1 n2 n3 i)
      (Function.update s .result (some (g1 ^ (n1 >>> i) * g2 ^ (n2 >>> i) * g3 ^ (n3 >>> i)))) =
        some (Function.update s .result (some (g1 ^ n1 * g2 ^ n2 * g3 ^ n3))) := by
  induction i with
  | zero =>
    rw [elementPow3LoopCalls, runCalls_nil, Nat.shiftRight_zero, Nat.shiftRight_zero,
      Nat.shiftRight_zero]
  | succ i ih =>
    have own : ∀ r, Function.update s .result (some r) .result = some r := fun r =>
      Function.update_self _ _ _
    have entry : ∀ r, Function.update s .result r (.lookup ((n1.testBit i).toNat +
        ((n2.testBit i).toNat <<< 1) + ((n3.testBit i).toNat <<< 2))) =
          some (g1 ^ (n1.testBit i).toNat * g2 ^ (n2.testBit i).toNat * g3 ^ (n3.testBit i).toNat) :=
      fun r => (Function.update_of_ne (fun same => by cases same) _ _).trans (entries _ _ _)
    rw [elementPow3LoopCalls, runCalls_mul (own _) (own _), Function.update_idem,
      runCalls_mul (own _) (entry _), Function.update_idem, turn_three]
    exact ih

/-- Above the longest exponent the product is one. -/
private theorem start_two {n1 n2 i : ℕ} (first : mpzSizeinbase2 n1 ≤ i)
    (second : mpzSizeinbase2 n2 ≤ i) : g1 ^ (n1 >>> i) * g2 ^ (n2 >>> i) = 1 := by
  rw [pow_shiftRight_of_le g1 first, pow_shiftRight_of_le g2 second, mul_one]

theorem elementPow2Calls_run (x : ι) {a1 a2 : ι} (n1 n2 : ℕ) (base1 : s (.object a1) = some g1)
    (base2 : s (.object a2) = some g2) :
    ∃ t, runCalls squared (elementPow2Calls x a1 n1 a2 n2) s = some t ∧
      t (.object x) = some (g1 ^ n1 * g2 ^ n2) ∧ ∀ i, i ≠ x → t (.object i) = s (.object i) := by
  rw [elementPow2Calls]
  by_cases zero : n1 = 0 ∧ n2 = 0
  · rw [if_pos zero]
    exact set1_run s x (by rw [zero.1, zero.2, pow_zero, pow_zero, mul_one])
  · rw [if_neg zero]
    dsimp only
    generalize same : (if mpzSizeinbase2 n1 - 1 > mpzSizeinbase2 n2 - 1 then mpzSizeinbase2 n1 - 1
      else mpzSizeinbase2 n2 - 1) = m
    have first : mpzSizeinbase2 n1 ≤ m + 1 := by split at same <;> omega
    have second : mpzSizeinbase2 n2 ≤ m + 1 := by split at same <;> omega
    have apart : (.product : PowCell ι) ≠ .result := fun same => by cases same
    have frame : ∀ i, Function.update s .product (some (g1 * g2)) (.object i) = s (.object i) :=
      fun i => Function.update_of_ne (fun same => by cases same) _ _
    have looped := elementPow2LoopCalls_run squared n1 n2 ((frame a1).trans base1)
      ((frame a2).trans base2) (Function.update_self _ _ _) (m + 1)
    rw [start_two first second, Function.update_comm apart,
      ← runCalls_mul ((update_result_object s _ a1).trans base1)
        ((update_result_object s _ a2).trans base2)] at looped
    exact set_result_run looped (Function.update_self _ _ _)
      (fun i => (update_result_object _ _ i).trans (frame i)) x

theorem elementPow3Calls_run (x : ι) {a1 a2 a3 : ι} (n1 n2 n3 : ℕ)
    (base1 : s (.object a1) = some g1) (base2 : s (.object a2) = some g2)
    (base3 : s (.object a3) = some g3) :
    ∃ t, runCalls squared (elementPow3Calls x a1 n1 a2 n2 a3 n3) s = some t ∧
      t (.object x) = some (g1 ^ n1 * g2 ^ n2 * g3 ^ n3) ∧
      ∀ i, i ≠ x → t (.object i) = s (.object i) := by
  rw [elementPow3Calls]
  by_cases zero : n1 = 0 ∧ n2 = 0 ∧ n3 = 0
  · rw [if_pos zero]
    exact set1_run s x (by rw [zero.1, zero.2.1, zero.2.2, pow_zero, pow_zero, pow_zero, mul_one,
      mul_one])
  · rw [if_neg zero]
    dsimp only
    generalize same : (if mpzSizeinbase2 n1 - 1 > mpzSizeinbase2 n2 - 1 then
      if mpzSizeinbase2 n1 - 1 > mpzSizeinbase2 n3 - 1 then mpzSizeinbase2 n1 - 1
        else mpzSizeinbase2 n3 - 1
      else if mpzSizeinbase2 n2 - 1 > mpzSizeinbase2 n3 - 1 then mpzSizeinbase2 n2 - 1
        else mpzSizeinbase2 n3 - 1) = m
    have longest : mpzSizeinbase2 n1 ≤ m + 1 ∧ mpzSizeinbase2 n2 ≤ m + 1 ∧
        mpzSizeinbase2 n3 ≤ m + 1 := by
      split at same <;> split at same <;> omega
    have table := elementPow3Table_run squared ((update_result_object s (some 1) a1).trans base1)
      ((update_result_object s (some 1) a2).trans base2)
      ((update_result_object s (some 1) a3).trans base3)
    generalize built : withLookup (Function.update s .result (some 1)) _ = t at table
    have one : t .result = some 1 := by
      rw [← built]
      exact Function.update_self PowCell.result (some 1) s
    have frame : ∀ i, t (.object i) = s (.object i) := by
      intro i
      rw [← built]
      exact update_result_object s (some 1) i
    have looped := elementPow3LoopCalls_run squared n1 n2 n3 (s := t) (fun b1 b2 b3 => by
      rw [← built, withLookup_lookup]
      exact pow3Entries_bits g1 g2 g3 _ b1 b2 b3) (m + 1)
    rw [start_two longest.1 longest.2.1, pow_shiftRight_of_le g3 longest.2.2, mul_one,
      Function.update_eq_self_iff.mpr one.symm, ← runCalls_append table] at looped
    exact set_result_run looped (Function.update_self _ _ _)
      (fun i => (update_result_object _ _ i).trans (frame i)) x

/-- In a commutative monoid, whatever elements the destination and the bases share, the routines
leave the product of the powers in the destination and every other element of the callers as it
was, for all exponents. -/
theorem multiPow_exact (squared : M → M) (s : PowCell ι → Option M) (x a1 a2 a3 : ι) {g1 g2 g3 : M}
    (base1 : s (.object a1) = some g1) (base2 : s (.object a2) = some g2)
    (base3 : s (.object a3) = some g3) (n1 n2 n3 : ℕ) :
    (∃ t, runCalls squared (elementPow2Calls x a1 n1 a2 n2) s = some t ∧
      t (.object x) = some (g1 ^ n1 * g2 ^ n2) ∧ ∀ i, i ≠ x → t (.object i) = s (.object i)) ∧
    ∃ t, runCalls squared (elementPow3Calls x a1 n1 a2 n2 a3 n3) s = some t ∧
      t (.object x) = some (g1 ^ n1 * g2 ^ n2 * g3 ^ n3) ∧
      ∀ i, i ≠ x → t (.object i) = s (.object i) :=
  ⟨elementPow2Calls_run x n1 n2 base1 base2, elementPow3Calls_run x n1 n2 n3 base1 base2 base3⟩

theorem multiPow_exact_small :
    (∃ t, runCalls id (elementPow2Calls (0 : Fin 2) 0 6 1 0) (fun _ => some 3) = some t ∧
      t (.object 0) = some (3 ^ 6 * 3 ^ 0)) ∧
    ∃ t, runCalls id (elementPow3Calls (0 : Fin 2) 0 6 1 0 0 17) (fun _ => some 3) = some t ∧
      t (.object 0) = some (3 ^ 6 * 3 ^ 0 * 3 ^ 17) :=
  let ⟨⟨t, run, value, _⟩, t', run', value', _⟩ :=
    multiPow_exact id (fun _ => some 3) (0 : Fin 2) 0 1 0 rfl rfl rfl 6 0 17
  ⟨⟨t, run, value⟩, t', run', value'⟩

end Values

end Pbc.Arith
