import Pbc.Arith.FlaggedFp
import Pbc.Arith.NaiveFp
import Pbc.Number.Montgomery

/-!
# Montgomery multiplication on limbs

The two loops of the Montgomery implementation run over arrays that are longer than
the modulus. The reduction counts the carries that leave its array. The multiplication
keeps one limb for them, which is not enough when the sum with a digit's product
already needs one limb more.
-/

open Pbc.Gmp Pbc.Number

namespace Pbc.Arith

section Operations

variable (f : FpFieldData)

/-- The limb `negpinv` that `field_init_mont_fp` stores: the inverse of the modulus goes
through an `int` of 32 bits. -/
def montNegpinv : ℕ :=
  let z := (mpzInvert (f.base ^ f.limbs) f.order).getD 0
  let val := Int.bmod (z % f.base) (2 ^ 32)
  ((-val) % f.base).toNat

variable (negpinv : ℕ)

/-- One turn of `mont_reduce` on the limbs `y` and the carries counted. -/
def montReduceTurn (s : ℕ × ℕ) (i : ℕ) : ℕ × ℕ :=
  let (y, flag) := s
  let u := y / f.base ^ i % f.base * negpinv % f.base
  let (low, carry) := mpnAddmul1 f.base f.limbs (y / f.base ^ i % f.base ^ f.limbs) f.order u
  let (high, spill) := mpnAdd1 f.base (f.limbs - i) (y / f.base ^ (i + f.limbs)) carry
  (y % f.base ^ i + low * f.base ^ i + high * f.base ^ (i + f.limbs), flag + spill)

/-- `mont_reduce` of twice as many limbs as the modulus has. -/
def montReduce (y : ℕ) : ℕ :=
  let (y, flag) := (List.range f.limbs).foldl (montReduceTurn f negpinv) (y, 0)
  let high := y / f.base ^ f.limbs
  if flag ≠ 0 ∨ mpnCmp high f.order ≥ 0 then (mpnSubN f.base f.limbs high f.order).1 else high

/-- One turn of `mont_mul` on the limbs `z[i], ..., z[i + t]`, for the limb `ai` of `a`.
The lower limbs are not read again; before the first turn there are none. -/
def montMulTurn (b z ai : ℕ) : ℕ :=
  let u := (z % f.base + ai * (b % f.base)) * negpinv % f.base
  let (low, carry) := mpnAddmul1 f.base f.limbs (z % f.base ^ f.limbs) b ai
  let v := (z / f.base ^ f.limbs + carry) % f.base
  let (low, carry) := mpnAddmul1 f.base f.limbs low f.order u
  let top := (v + carry) % f.base
  let spill := if top < v then 1 else 0
  low / f.base + f.base ^ (f.limbs - 1) * top + f.base ^ f.limbs * spill

/-- `mont_mul`. -/
def montMul (a b : ℕ) : ℕ :=
  let z := (List.range f.limbs).foldl
    (fun z i => montMulTurn f negpinv b z (a / f.base ^ i % f.base)) 0
  let high := z % f.base ^ f.limbs
  if z / f.base ^ f.limbs ≠ 0 ∨ mpnCmp high f.order ≥ 0 then
    (mpnSubN f.base f.limbs high f.order).1
  else high

end Operations

section Values

variable {f : FpFieldData} {negpinv : ℕ}

/-- A limb and the test for its overflow give the sum back. -/
private theorem limb_add_overflow {base v k : ℕ} (limb : v < base) (lower : v ≤ k)
    (upper : k < v + base) : k % base + base * (if k % base < v then 1 else 0) = k := by
  by_cases fits : k < base
  · rw [Nat.mod_eq_of_lt fits, if_neg (not_lt.mpr lower), mul_zero, add_zero]
  · have rest : k % base = k - base := by
      rw [Nat.mod_eq_sub_mod (not_lt.mp fits), Nat.mod_eq_of_lt (by omega)]
    rw [rest, if_pos (by omega), mul_one]
    omega

/-- Adding to the lower part of a sum. -/
private theorem add_low (m s a : ℕ) :
    (s % m + a) % m = (s + a) % m ∧ s / m + (s % m + a) / m = (s + a) / m := by
  refine ⟨by rw [Nat.mod_add_mod], ?_⟩
  rcases Nat.eq_zero_or_pos m with rfl | positive
  · simp
  · have split : s + a = s % m + a + m * (s / m) := by
      have := Nat.mod_add_div s m
      omega
    rw [split, Nat.add_mul_div_left _ _ positive, add_comm]

/-- A turn is a round of Montgomery's method, less the part of the sum above its limb. -/
theorem montMulTurn_add (negpinv b z ai : ℕ) :
    montMulTurn f negpinv b z ai + f.base ^ f.limbs * ((z + ai * b) / f.base ^ (f.limbs + 1)) =
      montRound f.base f.order negpinv b ai z := by
  have positive : 0 < f.base := f.one_lt_base.le
  have area : f.base ^ (f.limbs - 1) * f.base = f.base ^ f.limbs := by
    rw [← pow_succ]
    rfl
  have wide : 0 < f.base ^ f.limbs := Nat.pow_pos positive
  have above : (z + ai * b) / f.base ^ (f.limbs + 1) = (z + ai * b) / f.base ^ f.limbs / f.base := by
    rw [pow_succ, Nat.div_div_eq_div_mul]
  simp only [montMulTurn, mpnAddmul1, montRound]
  rw [← montQuotient, above]
  generalize quotient : montQuotient f.base negpinv b ai z = u
  have small : u < f.base := quotient ▸ montQuotient_lt positive negpinv b ai z
  obtain ⟨low, high⟩ := add_low (f.base ^ f.limbs) z (b * ai)
  obtain ⟨low', high'⟩ := add_low (f.base ^ f.limbs) (z + b * ai) (f.order * u)
  rw [mul_comm ai b, mul_comm u]
  have carry : ((z + b * ai) % f.base ^ f.limbs + f.order * u) / f.base ^ f.limbs < f.base := by
    refine Nat.div_lt_of_lt_mul ?_
    have rest := Nat.mod_lt (z + b * ai) wide
    have product : f.order * u ≤ f.base ^ f.limbs * (f.base - 1) :=
      Nat.mul_le_mul f.order_lt.le (Nat.le_sub_one_of_lt small)
    have total : f.base ^ f.limbs * f.base =
        f.base ^ f.limbs * (f.base - 1) + f.base ^ f.limbs := by
      rw [← Nat.mul_succ]
      congr 1
      omega
    omega
  simp only [low, high, low']
  generalize rest : ((z + b * ai) % f.base ^ f.limbs + f.order * u) / f.base ^ f.limbs = k at *
  generalize top : (z + b * ai) / f.base ^ f.limbs = V at *
  generalize z + b * ai + f.order * u = s at *
  -- The limb of the window holds `V` without its part above the limb, and the test finds the
  -- overflow of the second addition only.
  have whole := limb_add_overflow (Nat.mod_lt V positive) (Nat.le_add_right (V % f.base) k)
    (Nat.add_lt_add_left carry _)
  have parts := Nat.mod_add_div V f.base
  calc s % f.base ^ f.limbs / f.base + f.base ^ (f.limbs - 1) * ((V % f.base + k) % f.base) +
          f.base ^ f.limbs * (if (V % f.base + k) % f.base < V % f.base then 1 else 0) +
        f.base ^ f.limbs * (V / f.base)
      = s % f.base ^ f.limbs / f.base + f.base ^ (f.limbs - 1) * ((V % f.base + k) % f.base +
          f.base * (if (V % f.base + k) % f.base < V % f.base then 1 else 0) +
            f.base * (V / f.base)) := by
        rw [← area]
        ring
    _ = s % f.base ^ f.limbs / f.base + f.base ^ (f.limbs - 1) * (s / f.base ^ f.limbs) := by
        rw [whole, add_right_comm, parts, high']
    _ = (s % f.base ^ f.limbs + f.base * (f.base ^ (f.limbs - 1) * (s / f.base ^ f.limbs))) /
          f.base := (Nat.add_mul_div_left _ _ positive).symm
    _ = s / f.base := by
        rw [← mul_assoc, mul_comm f.base, area, Nat.mod_add_div]

/-- A turn is a round of Montgomery's method when the sum leaves room in its limb. -/
theorem montMulTurn_eq {b z ai : ℕ} (fits : z + ai * b < f.base ^ (f.limbs + 1)) :
    montMulTurn f negpinv b z ai = montRound f.base f.order negpinv b ai z := by
  rw [← montMulTurn_add, Nat.div_eq_of_lt fits, mul_zero, add_zero]

/-- A sum below twice the modulus is reduced by one subtraction. -/
theorem finish_eq {s : ℕ} (sum : s < 2 * f.order) :
    (if s / f.base ^ f.limbs ≠ 0 ∨ mpnCmp (s % f.base ^ f.limbs) f.order ≥ 0 then
      (mpnSubN f.base f.limbs (s % f.base ^ f.limbs) f.order).1
    else s % f.base ^ f.limbs) = if f.order ≤ s then s - f.order else s := by
  have area := f.order_lt
  simp only [mpnCmp_nonneg]
  by_cases fits : s < f.base ^ f.limbs
  · rw [Nat.div_eq_of_lt fits, Nat.mod_eq_of_lt fits]
    by_cases above : f.order ≤ s
    · rw [if_pos (Or.inr above), if_pos above, mpnSubN_of_le above]
    · rw [if_neg (by simpa using above), if_neg above]
  · have rest : s % f.base ^ f.limbs = s - f.base ^ f.limbs := by
      rw [Nat.mod_eq_sub_mod (not_lt.mp fits), Nat.mod_eq_of_lt (by omega)]
    have spills : s / f.base ^ f.limbs ≠ 0 := by
      rw [Ne, Nat.div_eq_zero_iff]
      omega
    rw [rest, if_pos (Or.inl spills), if_pos (by omega), mpnSubN_of_lt (by omega)]
    omega

/-- The reduced sum has the residue of the sum. -/
theorem reduced_spec {s : ℕ} (sum : s < 2 * f.order) :
    (if f.order ≤ s then s - f.order else s) < f.order ∧
      (((if f.order ≤ s then s - f.order else s : ℕ)) : ZMod f.order) = s := by
  split
  · next above =>
    refine ⟨by omega, ?_⟩
    rw [Nat.cast_sub above, ZMod.natCast_self, sub_zero]
  · next below => exact ⟨not_le.mp below, rfl⟩

/-- When no carry is lost, the loop of the multiplication makes the sums of the rounds. -/
theorem montMul_eq {a b : ℕ} (operand : b < f.order)
    (fits : MontFits f.base f.order negpinv f.limbs a b) :
    montMul f negpinv a b =
      (let s := montSum f.base f.order negpinv a b 0 f.limbs
      if f.order ≤ s then s - f.order else s) := by
  have loop : ∀ i ≤ f.limbs, (List.range i).foldl
      (fun z i => montMulTurn f negpinv b z (a / f.base ^ i % f.base)) 0 =
        montSum f.base f.order negpinv a b 0 i := by
    intro i inside
    induction i with
    | zero => rfl
    | succ i ih =>
      rw [List.range_succ, List.foldl_append, ih (by omega), List.foldl_cons, List.foldl_nil,
        montMulTurn_eq (fits i inside), montSum]
  rw [montMul, loop f.limbs le_rfl]
  exact finish_eq (montSum_lt f.one_lt_base.le operand f.limbs)

/-- Montgomery multiplication of reduced operands whose sums fit: the result is reduced,
and is the product over the power of the base. -/
theorem montMul_spec {a b : ℕ} (inverse : negpinv * f.order % f.base = f.base - 1)
    (left : a < f.order) (operand : b < f.order)
    (fits : MontFits f.base f.order negpinv f.limbs a b) :
    montMul f negpinv a b < f.order ∧
      (f.base ^ f.limbs : ZMod f.order) * (montMul f negpinv a b : ℕ) = a * b := by
  have sum := montSum_lt (n := negpinv) (a := a) f.one_lt_base.le operand f.limbs
  have value := montSum_cast (p := f.order) inverse f.one_lt_base.le a b 0 f.limbs
  obtain ⟨reduced, residue⟩ := reduced_spec sum
  rw [montMul_eq operand fits]
  refine ⟨reduced, ?_⟩
  simp only [residue, value, Nat.mod_eq_of_lt (left.trans f.order_lt), Nat.cast_zero, zero_add]

/-- A turn of the reduction adds the multiple of the modulus that a round adds; the
carries that leave the array stand above it. -/
theorem montReduceTurn_spec (inverse : negpinv * f.order % f.base = f.base - 1) {y flag s i : ℕ}
    (inside : i < f.limbs)
    (sum : y + flag * f.base ^ (2 * f.limbs) = f.base ^ i * s) :
    (montReduceTurn f negpinv (y, flag) i).1 < f.base ^ (2 * f.limbs) ∧
      (montReduceTurn f negpinv (y, flag) i).1 +
          (montReduceTurn f negpinv (y, flag) i).2 * f.base ^ (2 * f.limbs) =
        f.base ^ (i + 1) * montRound f.base f.order negpinv 0 0 s := by
  have positive : 0 < f.base := f.one_lt_base.le
  have lower : 0 < f.base ^ i := Nat.pow_pos positive
  have split : f.base ^ (2 * f.limbs) = f.base ^ i * f.base ^ (2 * f.limbs - i) := by
    rw [← pow_add, Nat.add_sub_cancel' (by omega)]
  have split' : f.base ^ (2 * f.limbs) = f.base ^ (i + f.limbs) * f.base ^ (f.limbs - i) := by
    rw [← pow_add]
    congr 1
    omega
  -- The limbs below `i` are clear, and those from `i` on are the sum without the carries.
  have clear : y % f.base ^ i = 0 := by
    rw [split, mul_left_comm] at sum
    rw [← Nat.add_mul_mod_self_left y _ (flag * f.base ^ (2 * f.limbs - i)), sum, Nat.mul_mod_right]
  have shifted : y / f.base ^ i + flag * f.base ^ (2 * f.limbs - i) = s := by
    have whole := Nat.mod_add_div y (f.base ^ i)
    rw [clear, zero_add] at whole
    refine Nat.eq_of_mul_eq_mul_left lower ?_
    rw [mul_add, whole, ← sum, split]
    ring
  have digit : y / f.base ^ i % f.base = s % f.base := by
    have multiple : f.base ^ (2 * f.limbs - i) = f.base * f.base ^ (2 * f.limbs - i - 1) := by
      rw [← pow_succ']
      congr 1
      omega
    rw [← shifted, multiple, mul_left_comm, Nat.add_mul_mod_self_left]
  have quotient : y / f.base ^ i % f.base * negpinv % f.base = montQuotient f.base negpinv 0 0 s := by
    rw [montQuotient, zero_mul, add_zero, digit]
  obtain ⟨low, high⟩ := add_low (f.base ^ f.limbs) (y / f.base ^ i)
    (f.order * montQuotient f.base negpinv 0 0 s)
  have upper : y / f.base ^ (i + f.limbs) = y / f.base ^ i / f.base ^ f.limbs := by
    rw [pow_add, Nat.div_div_eq_div_mul]
  have round := montRound_mul inverse positive 0 0 s
  simp only [montReduceTurn, mpnAddmul1, mpnAdd1, quotient, clear, zero_add, upper, low, high]
  generalize montQuotient f.base negpinv 0 0 s = u at *
  generalize y / f.base ^ i = w at *
  have wide : 0 < f.base ^ f.limbs := Nat.pow_pos positive
  have rest := Nat.mod_lt (w + f.order * u) wide
  have rest' := Nat.mod_lt ((w + f.order * u) / f.base ^ f.limbs)
    (Nat.pow_pos positive : 0 < f.base ^ (f.limbs - i))
  have area' : f.base ^ (i + f.limbs) = f.base ^ f.limbs * f.base ^ i := by rw [pow_add, mul_comm]
  constructor
  · calc _ < f.base ^ (i + f.limbs) + _ * f.base ^ (i + f.limbs) := by
          rw [area']
          exact Nat.add_lt_add_right (Nat.mul_lt_mul_of_pos_right rest lower) _
      _ = (_ + 1) * f.base ^ (i + f.limbs) := by rw [add_one_mul, add_comm]
      _ ≤ f.base ^ (f.limbs - i) * f.base ^ (i + f.limbs) := Nat.mul_le_mul_right _ rest'
      _ = f.base ^ (2 * f.limbs) := by rw [split', mul_comm]
  · calc _ = f.base ^ i * ((w + f.order * u) % f.base ^ f.limbs + f.base ^ f.limbs *
          ((w + f.order * u) / f.base ^ f.limbs % f.base ^ (f.limbs - i) +
            f.base ^ (f.limbs - i) *
              ((w + f.order * u) / f.base ^ f.limbs / f.base ^ (f.limbs - i)))) +
          flag * f.base ^ (2 * f.limbs) := by
          rw [split', area']
          ring
      _ = f.base ^ i * (w + f.order * u) + flag * f.base ^ (2 * f.limbs) := by
          rw [Nat.mod_add_div, Nat.mod_add_div]
      _ = f.base ^ i * (s + u * f.order) := by
          rw [← shifted, split]
          ring
      _ = f.base ^ (i + 1) * montRound f.base f.order negpinv 0 0 s := by
          rw [pow_succ, mul_assoc, round, zero_mul, add_zero]

/-- The reduction after `i` turns: the sum of the rounds, with the carries above the array. -/
theorem montReduce_loop (inverse : negpinv * f.order % f.base = f.base - 1) {y : ℕ}
    (bound : y < f.order * f.base ^ f.limbs) {i : ℕ} (inside : i ≤ f.limbs) :
    ((List.range i).foldl (montReduceTurn f negpinv) (y, 0)).1 < f.base ^ (2 * f.limbs) ∧
      ((List.range i).foldl (montReduceTurn f negpinv) (y, 0)).1 +
          ((List.range i).foldl (montReduceTurn f negpinv) (y, 0)).2 * f.base ^ (2 * f.limbs) =
        f.base ^ i * montSum f.base f.order negpinv 0 0 y i := by
  induction i with
  | zero =>
    refine ⟨bound.trans ?_, by simp [montSum]⟩
    rw [two_mul, pow_add]
    exact Nat.mul_lt_mul_of_pos_right f.order_lt (Nat.pow_pos f.one_lt_base.le)
  | succ i ih =>
    have turn := montReduceTurn_spec inverse (by omega) (ih (by omega)).2
    rw [List.range_succ, List.foldl_append, List.foldl_cons, List.foldl_nil, montSum,
      Nat.zero_div, Nat.zero_mod]
    exact turn

/-- The reduction never counts a second carry. -/
theorem montReduce_carry_le (inverse : negpinv * f.order % f.base = f.base - 1) {y : ℕ}
    (bound : y < f.order * f.base ^ f.limbs) {i : ℕ} (inside : i ≤ f.limbs) :
    ((List.range i).foldl (montReduceTurn f negpinv) (y, 0)).2 ≤ 1 := by
  have total := (montReduce_loop inverse bound inside).2
  have sum := montSum_zero_lt (n := negpinv) f.one_lt_base.le bound i inside
  have wide : 0 < f.base ^ f.limbs := Nat.pow_pos f.one_lt_base.le
  have area : f.base ^ (2 * f.limbs) = f.base ^ f.limbs * f.base ^ f.limbs := by
    rw [← pow_add, two_mul]
  have whole : f.base ^ i * f.base ^ (f.limbs - i) = f.base ^ f.limbs := by
    rw [← pow_add, Nat.add_sub_cancel' inside]
  have below : f.base ^ i * montSum f.base f.order negpinv 0 0 y i < 2 * f.base ^ (2 * f.limbs) :=
    calc f.base ^ i * montSum f.base f.order negpinv 0 0 y i
        < f.base ^ i * (f.order * f.base ^ (f.limbs - i) + f.order) :=
          Nat.mul_lt_mul_of_pos_left sum (Nat.pow_pos f.one_lt_base.le)
      _ = f.order * (f.base ^ i * f.base ^ (f.limbs - i)) + f.order * f.base ^ i := by ring
      _ ≤ f.order * f.base ^ f.limbs + f.order * f.base ^ f.limbs := by
          rw [whole]
          exact Nat.add_le_add_left
            (Nat.mul_le_mul_left _ (Nat.pow_le_pow_right f.one_lt_base.le inside)) _
      _ = 2 * (f.order * f.base ^ f.limbs) := by ring
      _ ≤ 2 * f.base ^ (2 * f.limbs) := by
          rw [area]
          exact Nat.mul_le_mul_left _ (Nat.mul_le_mul_right _ f.order_lt.le)
  refine Nat.le_of_lt_succ (Nat.lt_of_mul_lt_mul_right (a := f.base ^ (2 * f.limbs)) ?_)
  exact lt_of_le_of_lt (Nat.le_add_left _ _) (total ▸ below)

/-- Montgomery reduction: the result is reduced, and is the operand over the power of
the base. -/
theorem montReduce_spec (inverse : negpinv * f.order % f.base = f.base - 1) {y : ℕ}
    (bound : y < f.order * f.base ^ f.limbs) :
    montReduce f negpinv y < f.order ∧
      (f.base ^ f.limbs : ZMod f.order) * (montReduce f negpinv y : ℕ) = y := by
  have area : f.base ^ (2 * f.limbs) = f.base ^ f.limbs * f.base ^ f.limbs := by
    rw [← pow_add, two_mul]
  have wide : 0 < f.base ^ f.limbs := Nat.pow_pos f.one_lt_base.le
  obtain ⟨inside, total⟩ := montReduce_loop inverse bound (le_refl f.limbs)
  have sum : montSum f.base f.order negpinv 0 0 y f.limbs < 2 * f.order := by
    have small := montSum_zero_lt (n := negpinv) f.one_lt_base.le bound f.limbs le_rfl
    rw [Nat.sub_self, pow_zero, mul_one] at small
    omega
  have value := montSum_cast (p := f.order) inverse f.one_lt_base.le 0 0 y f.limbs
  rw [Nat.zero_mod, Nat.cast_zero, zero_mul, add_zero] at value
  obtain ⟨reduced, residue⟩ := reduced_spec sum
  rw [montReduce]
  generalize (List.range f.limbs).foldl (montReduceTurn f negpinv) (y, 0) = final at *
  generalize montSum f.base f.order negpinv 0 0 y f.limbs = s at *
  -- The carries counted are the part of the sum above the array.
  have small : final.1 / f.base ^ f.limbs < f.base ^ f.limbs := by
    rw [area] at inside
    exact Nat.div_lt_of_lt_mul inside
  have whole : final.1 / f.base ^ f.limbs + f.base ^ f.limbs * final.2 = s := by
    have quotient := congrArg (· / f.base ^ f.limbs) total
    simp only [area, Nat.mul_div_cancel_left s wide] at quotient
    rw [← quotient, ← Nat.add_mul_div_left _ _ wide]
    congr 2
    ring
  have high : final.1 / f.base ^ f.limbs = s % f.base ^ f.limbs := by
    rw [← whole, Nat.add_mul_mod_self_left, Nat.mod_eq_of_lt small]
  have carries : final.2 = s / f.base ^ f.limbs := by
    rw [← whole, Nat.add_mul_div_left _ _ wide, Nat.div_eq_of_lt small, zero_add]
  have result := finish_eq sum
  simp only [high, carries, result]
  exact ⟨reduced, by rw [residue, value]⟩

/-- The `int` that `field_init_mont_fp` negates. -/
def montVal (f : FpFieldData) : ℤ :=
  Int.bmod ((mpzInvert (f.base ^ f.limbs) f.order).getD 0 % f.base) (2 ^ 32)

/-- The inverse of an odd modulus, and what the `int` keeps of it. -/
theorem montVal_spec (odd : f.order % 2 = 1) : ∃ z : ℤ, (f.base : ℤ) ∣ z * f.order - 1 ∧
    montVal f = Int.bmod (z % f.base) (2 ^ 32) := by
  have positive : 0 < f.base := f.one_lt_base.le
  have coprime : Int.gcd f.order (f.base ^ f.limbs : ℕ) = 1 := by
    rw [Int.gcd_natCast_natCast, FpFieldData.base, ← pow_mul]
    refine Nat.Coprime.pow_right _ (Nat.Coprime.symm ?_)
    exact Nat.Coprime.pow_left 8 (Nat.coprime_two_left.mpr (Nat.odd_iff.mpr odd))
  obtain ⟨z, inverted, -, product⟩ := mpzInvert_mul (Nat.pow_pos positive) coprime
  have multiple : ((f.base ^ f.limbs : ℕ) : ℤ) ∣ z * f.order - 1 := by
    rw [← sub_eq_zero] at product
    rw [← ZMod.intCast_zmod_eq_zero_iff_dvd]
    push_cast at product ⊢
    exact product
  refine ⟨z, (Int.natCast_dvd_natCast.mpr (dvd_pow_self _ (Nat.succ_ne_zero _))).trans multiple, ?_⟩
  rw [montVal, inverted, Option.getD_some]

private theorem mod_eq_pred_iff {base n : ℕ} (large : 1 < base) :
    n % base = base - 1 ↔ base ∣ n + 1 := by
  constructor
  · intro last
    refine ⟨n / base + 1, ?_⟩
    have parts := Nat.mod_add_div n base
    rw [mul_add, mul_one]
    omega
  · rintro ⟨k, total⟩
    cases k with
    | zero => omega
    | succ k =>
      have split : n = base - 1 + base * k := by
        rw [mul_add, mul_one] at total
        omega
      rw [split, Nat.add_mul_mod_self_left, Nat.mod_eq_of_lt (by omega)]

/-- The stored limb is the negative inverse exactly when the `int` is the inverse. -/
theorem montNegpinv_iff_montVal :
    montNegpinv f * f.order % f.base = f.base - 1 ↔ (f.base : ℤ) ∣ montVal f * f.order - 1 := by
  have large := f.one_lt_base
  have value : (montNegpinv f : ℤ) = -montVal f % f.base :=
    Int.toNat_of_nonneg (Int.emod_nonneg _ (by omega))
  have stored : (f.base : ℤ) ∣ -montVal f - montNegpinv f := by
    rw [value]
    exact Int.dvd_self_sub_emod
  have parts : (-montVal f - montNegpinv f) * f.order + ((montNegpinv f * f.order + 1 : ℕ) : ℤ) =
      -(montVal f * f.order - 1) := by
    push_cast
    ring
  rw [mod_eq_pred_iff large, ← Int.natCast_dvd_natCast, ← dvd_neg (b := montVal f * f.order - 1),
    ← parts]
  exact (Int.dvd_add_right (stored.mul_right _)).symm

/-- With limbs of at most 32 bits the stored limb is the negative inverse of every odd
modulus. -/
theorem montNegpinv_spec (odd : f.order % 2 = 1) (narrow : f.limbBytes ≤ 4) :
    montNegpinv f * f.order % f.base = f.base - 1 := by
  obtain ⟨z, inverse, value⟩ := montVal_spec odd
  have divides : (f.base : ℤ) ∣ (2 ^ 32 : ℕ) := by
    rw [Int.natCast_dvd_natCast, FpFieldData.base]
    exact pow_dvd_pow 256 narrow
  -- Modulo the base the detour through the `int` changes nothing.
  have low : (f.base : ℤ) ∣ z - z % f.base := Int.dvd_self_sub_emod
  have wrapped : (f.base : ℤ) ∣ z % f.base - montVal f := value ▸ divides.trans Int.dvd_self_sub_bmod
  refine montNegpinv_iff_montVal.mpr ?_
  have sum := inverse.sub ((low.add wrapped).mul_right f.order)
  have total : z * f.order - 1 - (z - z % f.base + (z % f.base - montVal f)) * f.order =
      montVal f * f.order - 1 := by ring
  rwa [total] at sum

end Values

end Pbc.Arith
