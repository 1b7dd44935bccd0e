import Pbc.Arith.LimbRuns

/-!
# What Montgomery's routines compute

The multiplication keeps one limb above its window. A turn whose sum does not fit loses a power
of the base, and lost powers never make up for each other modulo an odd modulus that is large
enough to lose one. The reduction counts its carries and loses none. The stored limb `negpinv` is
right exactly when the inverse of the modulus passes through an `int`.
-/

open Pbc.Gmp Pbc.Number

namespace Pbc.Arith

section Multiplication

variable (f : LimbField) (negpinv a b : ℕ)

/-- The window of `mont_mul` after `i` turns. -/
def montWindow (i : ℕ) : ℕ :=
  (List.range i).foldl (fun z i => montMulTurn f negpinv b z (a / f.base ^ i % f.base)) 0

/-- What a turn loses, in powers of the base above the window. -/
def lostCarry (i : ℕ) : ℕ :=
  (montWindow f negpinv a b i + a / f.base ^ i % f.base * b) / f.base ^ (f.limbs + 1)

/-- All that is lost before a turn. -/
def lostSum (i : ℕ) : ℕ :=
  ∑ j ∈ Finset.range i, f.base ^ j * lostCarry f negpinv a b j

theorem montWindow_succ (i : ℕ) : montWindow f negpinv a b (i + 1) +
    f.base ^ f.limbs * lostCarry f negpinv a b i =
      montRound f.base f.order negpinv b (a / f.base ^ i % f.base) (montWindow f negpinv a b i) := by
  rw [montWindow, List.range_succ, List.foldl_append, List.foldl_cons, List.foldl_nil]
  exact montMulTurn_add negpinv b _ _

variable {f negpinv a b}

/-- Losses keep the window below twice the modulus. -/
theorem montWindow_lt (operand : b < f.order) (i : ℕ) : montWindow f negpinv a b i < 2 * f.order := by
  have positive : 0 < f.base := f.one_lt_base.le
  induction i with
  | zero =>
    have := f.order_pos
    rw [montWindow, List.range_zero, List.foldl_nil]
    omega
  | succ i ih =>
    have step := montWindow_succ f negpinv a b i
    exact lt_of_le_of_lt (step ▸ Nat.le_add_right _ _)
      (montRound_lt positive (Nat.mod_lt _ positive) operand ih)

/-- The sum of a turn: the bound that decides what it can lose. -/
private theorem turn_lt (operand : b < f.order) (i : ℕ) :
    montWindow f negpinv a b i + a / f.base ^ i % f.base * b < (f.base + 1) * f.order := by
  have large := f.one_lt_base
  have window : montWindow f negpinv a b i < 2 * f.order := montWindow_lt operand i
  have product : a / f.base ^ i % f.base * b ≤ (f.base - 1) * f.order :=
    Nat.mul_le_mul (Nat.le_sub_one_of_lt (Nat.mod_lt _ (by omega))) operand.le
  have total : (f.base + 1) * f.order = (f.base - 1) * f.order + 2 * f.order := by
    rw [← Nat.add_mul]
    congr 1
    omega
  omega

/-- A turn loses one power at most. -/
private theorem lostCarry_le_one (operand : b < f.order) (i : ℕ) : lostCarry f negpinv a b i ≤ 1 := by
  refine Nat.le_of_lt_succ (Nat.div_lt_of_lt_mul ?_)
  have large := f.one_lt_base
  calc montWindow f negpinv a b i + a / f.base ^ i % f.base * b
      < (f.base + 1) * f.order := turn_lt operand i
    _ ≤ (2 * f.base) * f.base ^ f.limbs := Nat.mul_le_mul (by omega) f.order_lt.le
    _ = f.base ^ (f.limbs + 1) * 2 := by ring

/-- The window, scaled back, is the product of the digits read, less what was lost. -/
theorem montWindow_cast (inverse : negpinv * f.order % f.base = f.base - 1) (i : ℕ) :
    (f.base ^ i * montWindow f negpinv a b i + f.base ^ (f.limbs + 1) * lostSum f negpinv a b i :
      ZMod f.order) = (a % f.base ^ i : ℕ) * b := by
  induction i with
  | zero => simp [montWindow, lostSum, Nat.mod_one]
  | succ i ih =>
    have round := congrArg (Nat.cast : ℕ → ZMod f.order)
      (montRound_mul inverse f.one_lt_base.le b (a / f.base ^ i % f.base) (montWindow f negpinv a b i))
    have step := congrArg (Nat.cast : ℕ → ZMod f.order)
      (montWindow_succ f negpinv a b i)
    push_cast at round step
    rw [ZMod.natCast_self, mul_zero, add_zero] at round
    rw [lostSum, Finset.sum_range_succ, ← lostSum, Nat.mod_pow_succ]
    push_cast at ih ⊢
    linear_combination ih + (f.base : ZMod f.order) ^ i * round + (f.base : ZMod f.order) ^ (i + 1) * step

/-- The result is the window after all turns, reduced by one subtraction. -/
private theorem montMul_window (operand : b < f.order) : montMul f negpinv a b < f.order ∧
    (montMul f negpinv a b : ZMod f.order) = montWindow f negpinv a b f.limbs := by
  have result : montMul f negpinv a b =
      if f.order ≤ montWindow f negpinv a b f.limbs then montWindow f negpinv a b f.limbs - f.order
      else montWindow f negpinv a b f.limbs := finish_eq (montWindow_lt operand f.limbs)
  rw [result]
  exact reduced_spec (montWindow_lt operand f.limbs)

private theorem lostSum_mul_lt (operand : b < f.order) (i : ℕ) :
    lostSum f negpinv a b i * (f.base - 1) < f.base ^ i := by
  have large := f.one_lt_base
  induction i with
  | zero => simp [lostSum]
  | succ i ih =>
    have most : f.base ^ i * lostCarry f negpinv a b i ≤ f.base ^ i :=
      (Nat.mul_le_mul_left _ (lostCarry_le_one operand i)).trans_eq (mul_one _)
    calc lostSum f negpinv a b (i + 1) * (f.base - 1)
        = lostSum f negpinv a b i * (f.base - 1) +
            f.base ^ i * lostCarry f negpinv a b i * (f.base - 1) := by
          rw [lostSum, Finset.sum_range_succ, add_mul, lostSum]
      _ < f.base ^ i + f.base ^ i * (f.base - 1) :=
          Nat.add_lt_add_of_lt_of_le ih (Nat.mul_le_mul_right _ most)
      _ = f.base ^ i * (f.base - 1 + 1) := by ring
      _ = f.base ^ (i + 1) := by rw [Nat.sub_add_cancel large.le, pow_succ]

/-- A modulus that loses something is larger than all that can be lost. -/
private theorem lostSum_lt (operand : b < f.order) {j : ℕ} (lost : lostCarry f negpinv a b j ≠ 0) :
    lostSum f negpinv a b f.limbs < f.order := by
  have large : 256 ≤ f.base := Nat.le_self_pow f.positive.ne' 256
  have reached : f.base ^ (f.limbs + 1) < (f.base + 1) * f.order := by
    have bound := @turn_lt f negpinv a b operand j
    refine lt_of_le_of_lt ?_ bound
    by_contra fits
    exact lost (Nat.div_eq_of_lt (not_le.mp fits))
  by_contra above
  have above := Nat.mul_le_mul_right (f.base - 1) (not_lt.mp above)
  have total := lt_of_le_of_lt above (lostSum_mul_lt operand f.limbs)
  have scaled : (f.base + 1) * (f.order * (f.base - 1)) < (f.base + 1) * f.base ^ f.limbs :=
    Nat.mul_lt_mul_of_pos_left total (by omega)
  have scaled' : (f.base - 1) * f.base ^ (f.limbs + 1) < (f.base - 1) * ((f.base + 1) * f.order) :=
    Nat.mul_lt_mul_of_pos_left reached (by omega)
  have less : (f.base - 1) * f.base ^ (f.limbs + 1) < (f.base + 1) * f.base ^ f.limbs :=
    calc (f.base - 1) * f.base ^ (f.limbs + 1)
        < (f.base - 1) * ((f.base + 1) * f.order) := scaled'
      _ = (f.base + 1) * (f.order * (f.base - 1)) := by ring
      _ < (f.base + 1) * f.base ^ f.limbs := scaled
  have more : (f.base + 1) * f.base ^ f.limbs ≤ (f.base - 1) * f.base ^ (f.limbs + 1) :=
    calc (f.base + 1) * f.base ^ f.limbs
        ≤ ((f.base - 1) * f.base) * f.base ^ f.limbs := by
          refine Nat.mul_le_mul_right _ ?_
          calc f.base + 1 ≤ 2 * f.base := by omega
            _ ≤ (f.base - 1) * f.base := Nat.mul_le_mul_right _ (by omega)
      _ = (f.base - 1) * f.base ^ (f.limbs + 1) := by rw [pow_succ]; ring
  exact absurd less (not_lt.mpr more)

private theorem base_coprime (odd : f.order % 2 = 1) : Nat.Coprime f.base f.order :=
  Nat.Coprime.pow_left _ (Nat.Coprime.pow_left 8 (Nat.coprime_two_left.mpr (Nat.odd_iff.mpr odd)))

/-- Without a loss before a turn the window holds the sum of the rounds. -/
private theorem montWindow_eq {i : ℕ} (kept : ∀ j < i, lostCarry f negpinv a b j = 0) :
    montWindow f negpinv a b i = montSum f.base f.order negpinv a b 0 i := by
  induction i with
  | zero => rfl
  | succ i ih =>
    have step := montWindow_succ f negpinv a b i
    rw [kept i (Nat.lt_succ_self i), mul_zero, add_zero] at step
    rw [step, ih fun j below => kept j (below.trans (Nat.lt_succ_self i)), montSum]

/-- Nothing is lost exactly when all sums fit. -/
private theorem lostCarry_eq_zero_iff : (∀ i < f.limbs, lostCarry f negpinv a b i = 0) ↔
    MontFits f.base f.order negpinv f.limbs a b := by
  have wide : 0 < f.base ^ (f.limbs + 1) := Nat.pow_pos f.one_lt_base.le
  constructor
  · intro kept i inside
    rw [← montWindow_eq fun j below => kept j (below.trans inside)]
    exact (Nat.div_eq_zero_iff_lt wide).mp (kept i inside)
  · intro fits i inside
    induction i using Nat.strong_induction_on with
    | _ i ih =>
      have before := montWindow_eq fun j below => ih j below (below.trans inside)
      rw [lostCarry, before]
      exact Nat.div_eq_of_lt (fits i inside)

/-- The product is right exactly when no carry is lost. -/
theorem montMul_exact_iff (odd : f.order % 2 = 1)
    (inverse : negpinv * f.order % f.base = f.base - 1) (left : a < f.order) (operand : b < f.order) :
    (f.base ^ f.limbs : ZMod f.order) * (montMul f negpinv a b : ℕ) = a * b ↔
      CarriesKept f.base f.order f.limbs a b := by
  rw [← montFits_iff_carriesKept inverse f.one_lt_base.le (base_coprime odd)]
  constructor
  · intro right
    rw [← lostCarry_eq_zero_iff]
    by_contra some
    push Not at some
    obtain ⟨j, inside, lost⟩ := some
    have total := montWindow_cast (a := a) (b := b) inverse f.limbs
    have unit : IsUnit (f.base ^ (f.limbs + 1) : ZMod f.order) :=
      ((ZMod.isUnit_iff_coprime f.base f.order).mpr (base_coprime odd)).pow _
    rw [← (montMul_window operand).2, right, Nat.mod_eq_of_lt (left.trans f.order_lt), add_eq_left,
      unit.mul_right_eq_zero, ZMod.natCast_eq_zero_iff] at total
    have none := Nat.eq_zero_of_dvd_of_lt total (lostSum_lt operand lost)
    have part := Finset.sum_eq_zero_iff.mp none j (Finset.mem_range.mpr inside)
    rcases Nat.mul_eq_zero.mp part with zero | zero
    · exact absurd zero (Nat.pow_pos f.one_lt_base.le).ne'
    · exact lost zero
  · intro fits
    exact (montMul_spec inverse left operand fits).2

/-- `mont_mul` on the arrays of a program, with an array of its own for the window. -/
def montMulAt {ι : Type} [DecidableEq ι] (f : LimbField) (negpinv : ℕ) (s : ι → ℕ) (c a b : ι) :
    Option (ι → ℕ) := do
  f.arrays true
  return Function.update s c (montMul f negpinv (s a) (s b))

/-- The array of `mont_mul` holds the window of a modulus of at most `MAX_LIMBS` limbs. -/
theorem arrays_true_eq : f.arrays true = if f.limbs ≤ maxLimbs then some () else none := by
  rw [FpFieldData.arrays, Bool.true_and]
  by_cases small : f.limbs ≤ maxLimbs
  · rw [if_pos small, if_neg (by simpa using small)]
  · rw [if_neg small, if_pos (by simpa using small)]

/-- For every odd modulus of more than one limb and all reduced operands, the multiplication
writes the reduced product over the power of the base, whatever arrays the operands and the result
share, exactly when its own array holds the window and no carry is lost. -/
theorem montMulAt_exact_iff {ι : Type} [DecidableEq ι] (odd : f.order % 2 = 1)
    (inverse : negpinv * f.order % f.base = f.base - 1) (s : ι → ℕ) (c a b : ι)
    (left : s a < f.order) (right : s b < f.order) :
    (∃ s', montMulAt f negpinv s c a b = some s' ∧ s' c < f.order ∧
      (f.base ^ f.limbs : ZMod f.order) * (s' c : ℕ) = s a * s b ∧ ∀ i, i ≠ c → s' i = s i) ↔
    f.limbs ≤ maxLimbs ∧ CarriesKept f.base f.order f.limbs (s a) (s b) := by
  rw [montMulAt, arrays_true_eq]
  constructor
  · rintro ⟨s', run, -, product, -⟩
    split at run
    · next room =>
      obtain rfl := Option.some.inj run
      rw [Function.update_self] at product
      exact ⟨room, (montMul_exact_iff odd inverse left right).mp product⟩
    · exact absurd run nofun
  · rintro ⟨room, kept⟩
    refine ⟨_, by rw [if_pos room]; rfl, ?_, ?_, fun i apart => Function.update_of_ne apart _ _⟩
    · rw [Function.update_self]
      exact (montMul_window right).1
    · rw [Function.update_self]
      exact (montMul_exact_iff odd inverse left right).mpr kept

end Multiplication

section Reduction

variable {f : LimbField}

/-- `fp_to_mpz`, with the array that it copies the limbs to. -/
def montToMpzAt (f : FpFieldData) (e : DataS) : Option ℕ := do
  f.arrays e.flag
  montToMpz f e

/-- The reduction is exact and counts one carry at most. An integer that is not a multiple of the
modulus, and the element one, are read back exactly when the array of `fp_to_mpz` holds the limbs
of the modulus. -/
theorem montRepresentation_iff (odd : f.order % 2 = 1)
    (constant : montNegpinv f * f.order % f.base = f.base - 1) :
    (∀ n y : ℕ, n * f.order % f.base = f.base - 1 → y < f.order * f.base ^ f.limbs →
      (∀ i ≤ f.limbs, ((List.range i).foldl (montReduceTurn f n) (y, 0)).2 ≤ 1) ∧
        montReduce f n y < f.order ∧
        (f.base ^ f.limbs : ZMod f.order) * (montReduce f n y : ℕ) = y) ∧
    (((∀ (e : DataS) (z : ℤ), ¬(f.order : ℤ) ∣ z →
        montToMpzAt f (montSetMpz f e z) = some (z % f.order).toNat) ∧
      ∀ e : DataS, montToMpzAt f (montSet1 f e) = some 1) ↔ f.limbs ≤ maxLimbs) := by
  refine ⟨fun n y inverse bound => ⟨fun i inside => montReduce_carry_le inverse bound inside,
    montReduce_spec inverse bound⟩, ?_, ?_⟩
  · rintro ⟨-, one⟩
    have run := one (fpInit 0)
    rw [montToMpzAt, montSet1, arrays_true_eq] at run
    split at run
    · next room => exact room
    · exact absurd run nofun
  · intro room
    have fits (e : DataS) : f.arrays e.flag = some () := f.arrays_of_fits fun _ => room
    constructor
    · intro e z proper
      obtain ⟨r, run, small, same⟩ :=
        montToMpz_spec odd constant (montSetMpz_holds odd e (Or.inr proper))
      have lower := Int.emod_nonneg z (by exact_mod_cast f.order_pos.ne' : (f.order : ℤ) ≠ 0)
      have upper := Int.emod_lt_of_pos z (by exact_mod_cast f.order_pos : 0 < (f.order : ℤ))
      have residue : (((z % f.order).toNat : ℕ) : ZMod f.order) = z := by
        rw [← Int.cast_natCast, Int.toNat_of_nonneg lower, ZMod.intCast_mod]
      rw [montToMpzAt, fits, ← (natCast_eq_iff small (by omega)).mp (same.trans residue.symm)]
      exact run
    · intro e
      obtain ⟨r, run, small, same⟩ := montToMpz_spec odd constant (montSet1_holds odd e)
      rw [montToMpzAt, fits, ← (natCast_eq_iff small f.one_lt_order).mp (same.trans Nat.cast_one.symm)]
      exact run

end Reduction

section Constant

variable {f : LimbField}

/-- The bounds of an `int`. -/
theorem montVal_range : -2 ^ 31 ≤ montVal f ∧ montVal f < 2 ^ 31 :=
  ⟨Int.le_bmod (by decide), Int.bmod_lt (by decide)⟩

/-- The stored limb is the negative inverse of an odd modulus exactly when some `int` is its
inverse modulo the base. Limbs of at most 32 bits have such an `int` for every odd modulus. -/
theorem montNegpinv_exact_iff (odd : f.order % 2 = 1) :
    (montNegpinv f * f.order % f.base = f.base - 1 ↔
      ∃ v : ℤ, -2 ^ 31 ≤ v ∧ v < 2 ^ 31 ∧ (f.base : ℤ) ∣ v * f.order - 1) ∧
    (f.limbBytes ≤ 4 → montNegpinv f * f.order % f.base = f.base - 1) := by
  refine ⟨⟨fun right => ?_, ?_⟩, montNegpinv_spec odd⟩
  · exact ⟨montVal f, montVal_range.1, montVal_range.2, montNegpinv_iff_montVal.mp right⟩
  · rintro ⟨v, lower, upper, inverse⟩
    by_cases narrow : f.limbBytes ≤ 4
    · exact montNegpinv_spec odd narrow
    obtain ⟨z, inverse', value⟩ := montVal_spec odd
    have coprime : IsCoprime (f.base : ℤ) f.order := Nat.isCoprime_iff_coprime.mpr (base_coprime odd)
    have same : (f.base : ℤ) ∣ z - v := by
      refine coprime.dvd_of_dvd_mul_right ?_
      have difference := inverse'.sub inverse
      rwa [sub_sub_sub_cancel_right, ← sub_mul] at difference
    have multiple : ((2 ^ 32 : ℕ) : ℤ) ∣ f.base := by
      rw [Int.natCast_dvd_natCast, FpFieldData.base]
      exact pow_dvd_pow 256 (by omega : 4 ≤ f.limbBytes)
    have residue : z % f.base ≡ v [ZMOD (2 ^ 32 : ℕ)] :=
      ((Int.mod_modEq z f.base).trans (Int.modEq_iff_dvd.mpr ((dvd_sub_comm).mp same))).of_dvd multiple
    have kept : montVal f = v := by
      rw [value, Int.bmod_eq_iff (by decide)]
      exact ⟨by omega, by omega, Int.modEq_iff_dvd.mp residue⟩
    rw [montNegpinv_iff_montVal, kept]
    exact inverse

end Constant

section Examples

private theorem fullLimb_positive : 0 < 4 := by decide

private theorem fullLimb_wide : 256 ^ 4 ≤ 18446744073709551557 := by decide

/-- The largest prime below 64 bits, in limbs of 32 bits. -/
def fullLimbField : LimbField where
  limbBytes := 4
  order := 18446744073709551557
  positive := fullLimb_positive
  wide := fullLimb_wide

private theorem fullLimbField_limbs : fullLimbField.limbs = 2 := by
  have log : Nat.log (256 ^ 4) 18446744073709551557 = 1 :=
    Nat.log_eq_of_pow_le_of_lt_pow (by norm_num) (by norm_num)
  exact congrArg (· + 1) log

theorem montMulAt_exact_small :
    (∃ s', montMulAt smallLimbField 286331153 (fun _ : Fin 1 => 6) 0 0 0 = some s' ∧
      s' 0 < smallLimbField.order ∧
      (smallLimbField.base ^ smallLimbField.limbs : ZMod smallLimbField.order) * (s' 0 : ℕ) =
        (6 : ℕ) * (6 : ℕ) ∧ ∀ i, i ≠ 0 → s' i = 6) ↔
    smallLimbField.limbs ≤ maxLimbs ∧
      CarriesKept smallLimbField.base smallLimbField.order smallLimbField.limbs 6 6 :=
  montMulAt_exact_iff (by decide) (by decide) (fun _ : Fin 1 => 6) 0 0 0 (by decide) (by decide)

/-- The square of the residue -1 loses a carry modulo the largest prime below 64 bits. -/
theorem montMulAt_loses_carry :
    fullLimbField.order % 2 = 1 ∧
    2693454067 * fullLimbField.order % fullLimbField.base = fullLimbField.base - 1 ∧
    fullLimbField.order - 1 < fullLimbField.order ∧
    ¬∃ s', montMulAt fullLimbField 2693454067 (fun _ : Fin 1 => fullLimbField.order - 1) 0 0 0 =
        some s' ∧ s' 0 < fullLimbField.order ∧
      (fullLimbField.base ^ fullLimbField.limbs : ZMod fullLimbField.order) * (s' 0 : ℕ) =
        (fullLimbField.order - 1 : ℕ) * (fullLimbField.order - 1 : ℕ) ∧
      ∀ i, i ≠ 0 → s' i = fullLimbField.order - 1 := by
  refine ⟨by decide, by decide, by decide, ?_⟩
  rintro ⟨s', run, -, product, -⟩
  rw [montMulAt, arrays_true_eq, if_pos (by rw [fullLimbField_limbs]; decide)] at run
  obtain rfl := Option.some.inj run
  rw [Function.update_self] at product
  have kept := (montMul_exact_iff (by decide) (by decide) (by decide) (by decide)).mp product
  rw [fullLimbField_limbs] at kept
  have small := kept 1 (by decide) 2693454128 (by decide) (by decide)
  exact absurd small (by decide)

theorem montRepresentation_small :
    montReduce smallLimbField (montNegpinv smallLimbField) 1 < smallLimbField.order ∧
      montToMpzAt smallLimbField (montSet1 smallLimbField (fpInit 0)) = some 1 := by
  have odd : smallLimbField.order % 2 = 1 := by decide
  have constant := montNegpinv_spec odd (le_refl 4)
  have short : smallLimbField.limbs ≤ maxLimbs := by decide
  obtain ⟨reduction, kept⟩ := montRepresentation_iff odd constant
  exact ⟨(reduction _ 1 constant (by decide)).2.1, (kept.mpr short).2 (fpInit 0)⟩

private theorem long_wide (n : ℕ) : 256 ^ 4 ≤ (256 ^ 4 + 1) ^ (n + 1) :=
  (Nat.le_succ _).trans (Nat.le_self_pow (Nat.succ_ne_zero n) _)

/-- An odd modulus of `n + 2` limbs of 32 bits. -/
def longLimbField (n : ℕ) : LimbField where
  limbBytes := 4
  order := (256 ^ 4 + 1) ^ (n + 1)
  positive := fullLimb_positive
  wide := long_wide n

private theorem overrun_of_long {f : LimbField} {n : ℕ} (limb : f.limbBytes ≤ 4)
    (order : f.order = (f.base + 1) ^ (n + 1)) (long : maxLimbs = n + 1) :
    f.order % 2 = 1 ∧ montNegpinv f * f.order % f.base = f.base - 1 ∧ ¬(f.order : ℤ) ∣ 1 ∧
      montToMpzAt f (montSetMpz f (fpInit 0) 1) = none ∧
      montToMpzAt f (montSet1 f (fpInit 0)) = none := by
  have odd : f.order % 2 = 1 := by
    rw [order, ← Nat.odd_iff]
    exact (even_iff_two_dvd.mpr f.two_dvd_base).add_one.pow
  have more : maxLimbs < f.limbs := by
    refine Nat.lt_succ_of_le (Nat.le_log_of_pow_le f.one_lt_base ?_)
    rw [order, long]
    exact Nat.pow_le_pow_left (Nat.le_succ _) _
  have overrun : f.arrays true = none := by rw [arrays_true_eq, if_neg (not_le.mpr more)]
  refine ⟨odd, montNegpinv_spec odd limb, ?_, ?_, ?_⟩
  · intro divides
    have small := Int.le_of_dvd one_pos divides
    have := f.one_lt_order
    omega
  · rw [montToMpzAt, montSetMpz, if_neg one_ne_zero]
    dsimp only
    rw [overrun]
    rfl
  · rw [montToMpzAt, montSet1, overrun]
    rfl

/-- The integer one is not read back modulo an odd number of 1025 limbs. -/
theorem montRepresentation_overrun : (longLimbField 1023).order % 2 = 1 ∧
    montNegpinv (longLimbField 1023) * (longLimbField 1023).order % (longLimbField 1023).base =
      (longLimbField 1023).base - 1 ∧
    ¬((longLimbField 1023).order : ℤ) ∣ 1 ∧
    montToMpzAt (longLimbField 1023) (montSetMpz (longLimbField 1023) (fpInit 0) 1) = none ∧
    montToMpzAt (longLimbField 1023) (montSet1 (longLimbField 1023) (fpInit 0)) = none := by
  have order (n : ℕ) : (longLimbField n).order = ((longLimbField n).base + 1) ^ (n + 1) := rfl
  exact overrun_of_long (le_refl 4) (order 1023) rfl

/-- The least odd modulus above 64 bits, in limbs of 64 bits. -/
def wideLimbField : LimbField where
  limbBytes := 8
  order := 18446744073709551629
  positive := by decide
  wide := by decide

theorem montNegpinv_exact_small :
    (montNegpinv smallLimbField * smallLimbField.order % smallLimbField.base =
        smallLimbField.base - 1 ↔
      ∃ v : ℤ, -2 ^ 31 ≤ v ∧ v < 2 ^ 31 ∧ (smallLimbField.base : ℤ) ∣ v * smallLimbField.order - 1) ∧
    (smallLimbField.limbBytes ≤ 4 →
      montNegpinv smallLimbField * smallLimbField.order % smallLimbField.base =
        smallLimbField.base - 1) :=
  montNegpinv_exact_iff (by decide)

private theorem not_inverse {v k : ℤ} (lower : -2 ^ 31 ≤ v) (upper : v < 2 ^ 31) :
    v * 18446744073709551629 - 1 ≠ 18446744073709551616 * k := by
  intro product
  have rest : 18446744073709551616 * (k - v) = 13 * v - 1 := by linear_combination -product
  clear product
  generalize k - v = m at rest
  norm_num at lower upper
  have zero : m = 0 := by
    rcases lt_trichotomy m 0 with below | zero | above
    · linarith
    · exact zero
    · linarith
  subst zero
  omega

private theorem wrong_of_wide {f : LimbField} (base : f.base = 18446744073709551616)
    (order : f.order = 18446744073709551629) : ¬montNegpinv f * f.order % f.base = f.base - 1 := by
  intro right
  obtain ⟨k, product⟩ := montNegpinv_iff_montVal.mp right
  rw [base, order, Nat.cast_ofNat, Nat.cast_ofNat] at product
  exact not_inverse montVal_range.1 montVal_range.2 product

/-- The inverse of 13 modulo 64 bits does not pass through an `int`. -/
theorem montNegpinv_wrong : wideLimbField.order % 2 = 1 ∧
    ¬montNegpinv wideLimbField * wideLimbField.order % wideLimbField.base =
      wideLimbField.base - 1 :=
  ⟨by decide, wrong_of_wide rfl rfl⟩

end Examples

end Pbc.Arith
