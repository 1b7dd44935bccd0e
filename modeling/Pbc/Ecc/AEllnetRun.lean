import Pbc.Ecc.AEllnetMiller

/-!
# Blocks at every turn of the elliptic net

The sequence that belongs to a point is fixed by its first values and its recurrences, so it is
that of the division polynomials. Every block that the loop reaches holds eight neighbours of it,
around the number that the bits processed so far spell.
-/

open Pbc.Arith Pbc.Gmp Pbc.Elliptic Pbc.Number

namespace Pbc.Ecc

/-- The elliptic divisibility sequence of a point of `y^2 = x^3 + x`. -/
structure EllnetSequence {F : Type*} [Field F] (x y : F) (W : ℤ → F) : Prop where
  zero : W 0 = 0
  one : W 1 = 1
  two : W 2 = 2 * y
  three : W 3 = 3 * x ^ 4 + 6 * x ^ 2 - 1
  four : W 4 = 4 * y * (x ^ 6 + 5 * x ^ 4 - 5 * x ^ 2 - 1)
  neg : ∀ n, W (-n) = -W n
  odd : ∀ n, 2 ≤ n → W (2 * n + 1) = W (n + 2) * W n ^ 3 - W (n - 1) * W (n + 1) ^ 3
  even : ∀ n, 3 ≤ n → W (2 * n) * (2 * y) =
    W n * (W (n + 2) * W (n - 1) ^ 2 - W (n - 2) * W (n + 1) ^ 2)

section Sequence

variable {F : Type*} [Field F] {x y : F}

/-- The division polynomials at the point are one. -/
theorem divisionValue_ellnetSequence : EllnetSequence x y (divisionValue 1 0 x y) where
  zero := normEDS_zero ..
  one := normEDS_one ..
  two := normEDS_two ..
  three := by
    have value : divisionValue 1 0 x y 3 = 3 * x ^ 4 + 6 * 1 * x ^ 2 + 12 * 0 * x - 1 ^ 2 :=
      normEDS_three ..
    rw [value]
    ring
  four := by
    have value : divisionValue 1 0 x y 4 = _ * (2 * y) := normEDS_four ..
    rw [value]
    ring
  neg _ := normEDS_neg ..
  odd n _ := divisionValue_odd x y n
  even n _ := by
    rw [divisionValue_even]
    ring

/-- There is no other one, as long as the divisor of the even terms is not zero. -/
theorem EllnetSequence.eq_divisionValue {W : ℤ → F} (net : EllnetSequence x y W)
    (nonzero : 2 * y ≠ 0) : W = divisionValue 1 0 x y := by
  have known := divisionValue_ellnetSequence (x := x) (y := y)
  have natural (n : ℕ) : W n = divisionValue 1 0 x y n := by
    induction n using normEDSRec with
    | zero => exact net.zero.trans known.zero.symm
    | one => exact net.one.trans known.one.symm
    | two => exact net.two.trans known.two.symm
    | three => exact net.three.trans known.three.symm
    | four => exact net.four.trans known.four.symm
    | even m first second third fourth fifth =>
      have left := net.even (m + 3) (by omega)
      have right := known.even (m + 3) (by omega)
      apply mul_right_cancel₀ nonzero
      push_cast at first second third fourth fifth ⊢
      rw [left, right, show (m : ℤ) + 3 + 2 = m + 5 by omega, show (m : ℤ) + 3 - 1 = m + 2 by omega,
        show (m : ℤ) + 3 - 2 = m + 1 by omega, show (m : ℤ) + 3 + 1 = m + 4 by omega, first,
        second, third, fourth, fifth]
    | odd m first second third fourth =>
      have left := net.odd (m + 2) (by omega)
      have right := known.odd (m + 2) (by omega)
      push_cast at first second third fourth ⊢
      rw [left, right, show (m : ℤ) + 2 + 2 = m + 4 by omega, show (m : ℤ) + 2 - 1 = m + 1 by omega,
        show (m : ℤ) + 2 + 1 = m + 3 by omega, first, second, third, fourth]
  funext n
  cases n with
  | ofNat n => exact natural n
  | negSucc n =>
    rw [Int.negSucc_eq]
    have opposite := natural (n + 1)
    push_cast at opposite
    rw [net.neg, known.neg, opposite]

end Sequence

/-- The eight terms of a sequence around an index. -/
def EllnetBlock.around {F : Type*} (W : ℤ → F) (k : ℤ) : EllnetBlock F :=
  ⟨W (k - 3), W (k - 2), W (k - 1), W k, W (k + 1), W (k + 2), W (k + 3), W (k + 4)⟩

section Run

variable {F : Type*} [Field F] [FpMethods F]

/-- What `a_pairing_ellnet` holds at the head of its loop with `m` bits still to be read, the last
of them at `m - 1`, and at the end with none. -/
inductive EllnetReached (r : ℕ) (x y x2 y2 : F) : ℕ → EllnetBlock F → EllnetValues F → Prop
  | start : EllnetReached r x y x2 y2 (mpzSizeinbase2 r - 1) (ellnetBlock x y).1
      (ellnetValues x y x2 y2).2.2
  | turn {m : ℕ} {c : EllnetBlock F} {d : EllnetValues F} :
      EllnetReached r x y x2 y2 (m + 1) c d →
        EllnetReached r x y x2 y2 m (ellnetTurn r (ellnetBlock x y).2 m (ellnetTerms c))
          (ellnetTurnValues r (ellnetValues x y x2 y2).1 (ellnetValues x y x2 y2).2.1 m
            (ellnetTerms c).toEllnetPpSt d)

variable {r : ℕ} {x y x2 y2 : F}

/-- The loop ends in a state that is reached without bits. -/
theorem EllnetReached.loop {m : ℕ} {c : EllnetBlock F} {d : EllnetValues F}
    (reached : EllnetReached r x y x2 y2 (m + 1) c d) :
    EllnetReached r x y x2 y2 0
      (aPairingEllnetLoop r (ellnetValues x y x2 y2).1 (ellnetBlock x y).2
        (ellnetValues x y x2 y2).2.1 m c d).1
      (aPairingEllnetLoop r (ellnetValues x y x2 y2).1 (ellnetBlock x y).2
        (ellnetValues x y x2 y2).2.1 m c d).2 := by
  induction m generalizing c d with
  | zero => exact reached.turn
  | succ m ih => exact ih reached.turn

/-- At every number of bits up to the length of the order there is a state. -/
theorem exists_ellnetReached {m : ℕ} (inside : m ≤ mpzSizeinbase2 r - 1) :
    ∃ c d, EllnetReached r x y x2 y2 m c d := by
  induction inside using Nat.decreasingInduction with
  | of_succ m inside ih =>
    obtain ⟨c, d, reached⟩ := ih
    exact ⟨_, _, reached.turn⟩
  | self => exact ⟨_, _, .start⟩

/-- A block that is reached holds the division polynomials at the prefix. -/
theorem EllnetReached.block (nonzero : 2 * y ≠ 0) (positive : r ≠ 0) {m : ℕ} {c : EllnetBlock F}
    {d : EllnetValues F} (reached : EllnetReached r x y x2 y2 m c d) :
    c.At x y (r >>> m : ℕ) := by
  obtain ⟨block, inverse⟩ := ellnetBlock_at (x := x) nonzero
  induction reached with
  | start =>
    have length : mpzSizeinbase2 r - 1 = r.log2 := rfl
    rw [length, shiftRight_log2 positive]
    exact block
  | turn _ ih => exact ellnetTurn_at inverse ih

/-- At every iteration of the loop of `a_pairing_ellnet`, and after the last one, the block holds
the eight terms of the sequence around the prefix of the order that was read. -/
theorem aPairingEllnet_block {W : ℤ → F} (two : (2 : F) ≠ 0) (axis : y ≠ 0)
    (net : EllnetSequence x y W) (large : 2 ≤ r) (x2 y2 : F) :
    (∀ m c d, EllnetReached r x y x2 y2 m c d → c = .around W (r >>> m : ℕ)) ∧
      (∀ m < mpzSizeinbase2 r, ∃ c d, EllnetReached r x y x2 y2 m c d) ∧
      (aPairingEllnetLoop r (ellnetValues x y x2 y2).1 (ellnetBlock x y).2
        (ellnetValues x y x2 y2).2.1 (mpzSizeinbase2 r - 2) (ellnetBlock x y).1
        (ellnetValues x y x2 y2).2.2).1 = .around W r := by
  have nonzero := mul_ne_zero two axis
  have blocks (m : ℕ) (c : EllnetBlock F) (d : EllnetValues F)
      (reached : EllnetReached r x y x2 y2 m c d) : c = .around W (r >>> m : ℕ) := by
    obtain ⟨cm3, cm2, cm1, c0, c1, c2, c3, c4⟩ := reached.block nonzero (by omega)
    rw [EllnetBlock.around, net.eq_divisionValue nonzero, ← cm3, ← cm2, ← cm1, ← c0, ← c1, ← c2,
      ← c3, ← c4]
  refine ⟨blocks, ?_, ?_⟩
  · intro m inside
    exact exists_ellnetReached (Nat.le_sub_one_of_lt inside)
  · have first : mpzSizeinbase2 r - 1 = mpzSizeinbase2 r - 2 + 1 := by
      have bits := log2_pos_of_two_le large
      rw [mpzSizeinbase2]
      omega
    have reached : EllnetReached r x y x2 y2 (mpzSizeinbase2 r - 1) _ _ := .start
    rw [first] at reached
    exact blocks _ _ _ reached.loop

end Run

section Seven

private local instance primeSevenEllnet : Fact (Nat.Prime 7) := ⟨by decide⟩

/-- The points `(1, 3)` and `(3, 3)` over `F_7`, and the order eight of the group. -/
theorem aPairingEllnet_block_seven :
    (∀ m c d, EllnetReached 8 (1 : ZMod 7) 3 3 3 m c d →
        c = .around (divisionValue 1 0 1 3) (8 >>> m : ℕ)) ∧
      (∀ m < mpzSizeinbase2 8, ∃ c d, EllnetReached 8 (1 : ZMod 7) 3 3 3 m c d) ∧
      (aPairingEllnetLoop 8 (ellnetValues 1 3 3 3).1 (ellnetBlock 1 3).2
        (ellnetValues 1 3 3 3).2.1 (mpzSizeinbase2 8 - 2) (ellnetBlock (1 : ZMod 7) 3).1
        (ellnetValues 1 3 3 3).2.2).1 = .around (divisionValue 1 0 1 3) (8 : ℕ) :=
  aPairingEllnet_block (by decide) (by decide) divisionValue_ellnetSequence (by decide) 3 3

end Seven

end Pbc.Ecc
