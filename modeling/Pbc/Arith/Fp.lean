import Mathlib.NumberTheory.LegendreSymbol.Basic
import Pbc.Gmp.Mpz

/-!
# Square roots in `F_p`

All implementations of `F_p` take square roots by the algorithm of Tonelli and
Shanks, run through their method tables with the nonresidue that the field keeps.
-/

open Pbc.Gmp

namespace Pbc.Arith

section Operations

/-- The methods that `fp_tonelli` calls. -/
structure FpTable (E : Type*) where
  mul : E → E → E
  invert : E → Option E
  powMpz : E → ℕ → E
  is1 : E → Bool

variable {E : Type*} (f : FpTable E)

/-- One turn of the loop of `fp_tonelli`, which finds bit `i - 1` of the exponent. -/
def tonelliStep (order : ℕ) (ginv a : E) (e i : ℕ) : ℕ :=
  let t0 := (order - 1) / 2 ^ i
  let e0 := f.powMpz ginv e
  let e0 := f.mul e0 a
  let e0 := f.powMpz e0 t0
  if f.is1 e0 then e else e ||| 2 ^ (i - 1)

/-- `fp_tonelli`. -/
def fpTonelli (order : ℕ) (nqr a : E) : Option E := do
  let ginv ← f.invert nqr
  let t := order - 1
  let s := mpzScan1 t
  let t := t / 2 ^ s
  let e := (List.range' 2 (s - 1)).foldl (tonelliStep f order ginv a) 0
  let e0 := f.powMpz ginv e
  let e0 := f.mul e0 a
  let t := t + 1
  let t := t / 2
  let e := e / 2
  let e0 := f.powMpz e0 t
  let x := f.powMpz nqr e
  return f.mul x e0

end Operations

section Values

variable {p : ℕ} [prime : Fact p.Prime] {E : Type*}

/-- The methods compute with the residues of the elements. A power with base and
exponent zero is left open. -/
structure FpTable.Implements (f : FpTable E) (value : E → ZMod p) : Prop where
  mul : ∀ a b, value (f.mul a b) = value a * value b
  invert : ∀ a, value a ≠ 0 → ∃ b, f.invert a = some b ∧ value b = (value a)⁻¹
  powMpz : ∀ a n, value a ≠ 0 ∨ n ≠ 0 → value (f.powMpz a n) = value a ^ n
  is1 : ∀ a n, n ≠ 0 → (f.is1 (f.powMpz a n) = true ↔ value (f.powMpz a n) = 1)

variable {f : FpTable E} {value : E → ZMod p} (implements : f.Implements value)

include implements

/-- The element that a turn tests. -/
private theorem tonelliTurn_value {g ginv a : E} (unit : value g ≠ 0)
    (inverse : value ginv = (value g)⁻¹) (e : ℕ) {c : ℕ} (nonzero : c ≠ 0) :
    value (f.powMpz (f.mul (f.powMpz ginv e) a) c) = ((value g)⁻¹ ^ e * value a) ^ c := by
  rw [implements.powMpz _ _ (Or.inr nonzero), implements.mul,
    implements.powMpz _ _ (Or.inl (by rw [inverse]; exact inv_ne_zero unit)), inverse]

/-- After the turns up to `m + 1` the exponent is even and has at most `m + 1` bits,
and the quotient by this power of the nonresidue has a power equal to one. -/
private theorem tonelliStep_spec {s : ℕ} (order : 2 ^ s ∣ p - 1) {g ginv a : E}
    (distinct : (-1 : ZMod p) ≠ 1)
    (unit : value g ≠ 0) (inverse : value ginv = (value g)⁻¹)
    (nonresidue : value g ^ ((p - 1) / 2) = -1) (square : value a ^ ((p - 1) / 2) = 1) (m : ℕ)
    (bound : m + 1 ≤ s) :
    ∃ k, (List.range' 2 m).foldl (tonelliStep f p ginv a) 0 = 2 * k ∧ 2 * k < 2 ^ (m + 1) ∧
      ((value g)⁻¹ ^ (2 * k) * value a) ^ ((p - 1) / 2 ^ (m + 1)) = 1 := by
  induction m with
  | zero => exact ⟨0, rfl, by decide, by simpa using square⟩
  | succ m ih =>
    obtain ⟨k, found, small, power⟩ := ih (by omega)
    obtain ⟨c, total⟩ := (pow_dvd_pow 2 bound).trans order
    have positive : 0 < p - 1 := Nat.sub_pos_of_lt prime.out.one_lt
    have part : (p - 1) / 2 ^ (m + 2) = c := by
      rw [total, Nat.mul_div_cancel_left _ (by positivity)]
    have double : (p - 1) / 2 ^ (m + 1) = c * 2 := by
      rw [total, pow_succ 2 (m + 1), mul_assoc, Nat.mul_div_cancel_left _ (by positivity),
        mul_comm]
    have half : 2 ^ (m + 1) * c = (p - 1) / 2 := by
      rw [total, pow_succ 2 (m + 1), mul_right_comm, Nat.mul_div_cancel _ (by decide)]
    have unity : ((value g)⁻¹ ^ (2 * k) * value a) ^ c * ((value g)⁻¹ ^ (2 * k) * value a) ^ c =
        1 := by
      rw [← pow_add, ← mul_two, ← double, power]
    have next : (List.range' 2 (m + 1)).foldl (tonelliStep f p ginv a) 0 =
        tonelliStep f p ginv a (2 * k) (m + 2) := by
      rw [List.range'_1_concat, List.foldl_append, found, List.foldl_cons, List.foldl_nil,
        add_comm 2 m]
    have nonzero : c ≠ 0 := by
      rintro rfl
      omega
    have answer := implements.is1 (f.mul (f.powMpz ginv (2 * k)) a) c nonzero
    rw [tonelliTurn_value implements unit inverse (2 * k) nonzero] at answer
    rw [next, tonelliStep, part]
    rcases mul_self_eq_one_iff.mp unity with one | negative
    · rw [if_pos (answer.mpr one)]
      exact ⟨k, rfl, small.trans (Nat.pow_lt_pow_succ (by decide)), one⟩
    · have apart : ¬f.is1 (f.powMpz (f.mul (f.powMpz ginv (2 * k)) a) c) = true := by
        rw [answer, negative]
        exact distinct
      rw [if_neg apart]
      refine ⟨k + 2 ^ m, ?_, ?_, ?_⟩
      · have set := Nat.two_pow_add_eq_or_of_lt small 1
        rw [mul_one] at set
        rw [show m + 2 - 1 = m + 1 by omega, Nat.or_comm, ← set, pow_succ]
        omega
      · rw [pow_succ 2 (m + 1)]
        rw [pow_succ] at small ⊢
        omega
      · have step : 2 * (k + 2 ^ m) = 2 ^ (m + 1) + 2 * k := by
          rw [pow_succ]
          ring
        rw [step, pow_add, mul_assoc, mul_pow, negative, ← pow_mul, half, inv_pow, nonresidue]
        norm_num

/-- The square of the result is the operand, for every square operand. -/
theorem fpTonelli_sq (odd : p ≠ 2) {nqr a : E} (nonresidue : ¬IsSquare (value nqr))
    (square : IsSquare (value a)) : ∃ x, fpTonelli f p nqr a = some x ∧ value x ^ 2 = value a := by
  have parity := prime.out.eq_two_or_odd.resolve_left odd
  have half : p / 2 = (p - 1) / 2 := by omega
  have positive : p - 1 ≠ 0 := Nat.sub_ne_zero_of_lt prime.out.one_lt
  have unit : value nqr ≠ 0 := by
    intro zero
    exact nonresidue (zero ▸ IsSquare.zero)
  have negative : value nqr ^ ((p - 1) / 2) = -1 := by
    rw [← half]
    exact (ZMod.pow_div_two_eq_neg_one_or_one p unit).resolve_left fun one =>
      nonresidue ((ZMod.euler_criterion p unit).mpr one)
  obtain ⟨ginv, inverted, inverse⟩ := implements.invert nqr unit
  obtain ⟨order, oddPart⟩ := mpzScan1_spec positive
  have enough : 1 ≤ mpzScan1 (p - 1) := by
    rw [Nat.one_le_iff_ne_zero]
    intro none
    rw [none, pow_zero, Nat.div_one] at oddPart
    omega
  have last : ((p - 1) / 2 ^ mpzScan1 (p - 1) + 1) / 2 ≠ 0 := by
    generalize (p - 1) / 2 ^ mpzScan1 (p - 1) = t at oddPart
    omega
  rw [fpTonelli, inverted]
  refine ⟨_, rfl, ?_⟩
  simp only [implements.mul, implements.powMpz _ _ (Or.inr last), implements.powMpz _ _ (Or.inl unit),
    implements.powMpz ginv _ (Or.inl (by rw [inverse]; exact inv_ne_zero unit)), inverse]
  by_cases zero : value a = 0
  · rw [zero, mul_zero, zero_pow last, mul_zero, zero_pow (by decide)]
  · have residue : value a ^ ((p - 1) / 2) = 1 := by
      rw [← half]
      exact (ZMod.euler_criterion p zero).mp square
    have distinct : (-1 : ZMod p) ≠ 1 := by
      have large : Fact (2 < p) := ⟨by have := prime.out.two_le; omega⟩
      exact ZMod.neg_one_ne_one
    obtain ⟨k, found, -, power⟩ := tonelliStep_spec implements (Dvd.intro _ order) distinct unit
      inverse negative residue (mpzScan1 (p - 1) - 1) (by omega)
    rw [Nat.sub_add_cancel enough] at power
    rw [found]
    generalize (p - 1) / 2 ^ mpzScan1 (p - 1) = t at oddPart power
    have double : (t + 1) / 2 * 2 = t + 1 := by omega
    have cancel : value nqr ^ (2 * k) * (value nqr)⁻¹ ^ (2 * k) = 1 := by
      rw [← mul_pow, mul_inv_cancel₀ unit, one_pow]
    calc (value nqr ^ (2 * k / 2) * ((value nqr)⁻¹ ^ (2 * k) * value a) ^ ((t + 1) / 2)) ^ 2
        = value nqr ^ (2 * k) * ((value nqr)⁻¹ ^ (2 * k) * value a) ^ (t + 1) := by
          rw [Nat.mul_div_cancel_left k (by decide), mul_pow, ← pow_mul, ← pow_mul, double,
            mul_comm k]
      _ = value nqr ^ (2 * k) * (value nqr)⁻¹ ^ (2 * k) * value a := by
          rw [pow_succ, power, one_mul, mul_assoc]
      _ = value a := by rw [cancel, one_mul]

/-- With a nonresidue in the field the routine returns for every operand, and the
result is a root exactly when there is one. -/
theorem fpTonelli_iff (odd : p ≠ 2) {nqr : E} (nonresidue : ¬IsSquare (value nqr)) (a : E) :
    ∃ x, fpTonelli f p nqr a = some x ∧ (value x ^ 2 = value a ↔ IsSquare (value a)) := by
  obtain ⟨ginv, inverted, -⟩ := implements.invert nqr fun zero => nonresidue (zero ▸ IsSquare.zero)
  by_cases square : IsSquare (value a)
  · obtain ⟨x, root, right⟩ := fpTonelli_sq implements odd nonresidue square
    exact ⟨x, root, iff_of_true right square⟩
  · refine ⟨_, by rw [fpTonelli, inverted]; rfl, iff_of_false (fun right => ?_) square⟩
    exact square (right ▸ IsSquare.sq _)

end Values

end Pbc.Arith
