import Mathlib.Algebra.Ring.Divisibility.Basic
import Mathlib.Data.Int.Interval
import Mathlib.Data.Finite.Prod
import Mathlib.Dynamics.PeriodicPts.Lemmas
import Mathlib.Tactic.LinearCombination
import Mathlib.Tactic.Linarith
import Mathlib.Tactic.Ring

/-!
# The continued fraction of a square root

The complete quotients `(P + √D) / Q` of the square root of a number that is not a square.
From a reduced one the expansion reaches only reduced ones and comes back to where it
started, and its convergents solve `p² - D q² = ± Q`.
-/

namespace Pbc.Number

/-- The square root of `D` lies strictly between `a` and `a + 1`. -/
structure SurdFloor (D a : ℤ) : Prop where
  pos : 0 < a
  lower : a ^ 2 < D
  upper : D < (a + 1) ^ 2

/-- The state `(P, Q)` of the expansion: the complete quotient is more than one, and its
conjugate lies between minus one and zero. -/
structure Reduced (D a : ℤ) (s : ℤ × ℤ) : Prop where
  pos : 0 < s.1
  le : s.1 ≤ a
  lower : a - s.1 < s.2
  upper : s.2 ≤ a + s.1
  dvd : s.2 ∣ D - s.1 ^ 2

/-- The partial quotient of a state. -/
def surdQuotient (a : ℤ) (s : ℤ × ℤ) : ℤ := (a + s.1) / s.2

/-- The state behind a state. -/
def surdStep (D a : ℤ) (s : ℤ × ℤ) : ℤ × ℤ :=
  let P := surdQuotient a s * s.2 - s.1
  (P, (D - P ^ 2) / s.2)

section Steps

variable {D a : ℤ} {s : ℤ × ℤ}

theorem Reduced.den_pos (reduced : Reduced D a s) : 0 < s.2 := by
  have := reduced.le
  have := reduced.lower
  omega

/-- The first state of the expansion. -/
theorem SurdFloor.reduced (floor : SurdFloor D a) : Reduced D a (a, D - a ^ 2) := by
  obtain ⟨pos, lower, upper⟩ := floor
  refine ⟨pos, le_rfl, ?_, ?_, dvd_rfl⟩
  · show a - a < D - a ^ 2
    linarith
  · show D - a ^ 2 ≤ a + a
    linarith

/-- The state of the square root itself. -/
theorem SurdFloor.reduced_one (floor : SurdFloor D a) : Reduced D a (a, 1) := by
  obtain ⟨pos, -, -⟩ := floor
  refine ⟨pos, le_rfl, ?_, ?_, one_dvd _⟩
  · show a - a < 1
    omega
  · show 1 ≤ a + a
    omega

/-- The partial quotient is the greatest factor that fits. -/
theorem Reduced.quotient (reduced : Reduced D a s) :
    0 < surdQuotient a s ∧ surdQuotient a s * s.2 ≤ a + s.1 ∧
      a + s.1 < surdQuotient a s * s.2 + s.2 := by
  have positive := reduced.den_pos
  refine ⟨?_, Int.ediv_mul_le _ positive.ne', ?_⟩
  · have one : 1 ≤ surdQuotient a s :=
      (Int.le_ediv_iff_mul_le positive).mpr (by linarith [reduced.upper])
    omega
  · have next := Int.lt_ediv_add_one_mul_self (a + s.1) positive
    rwa [add_mul, one_mul] at next

/-- The division in a step is exact. -/
theorem Reduced.step_mul (reduced : Reduced D a s) :
    (surdStep D a s).2 * s.2 = D - (surdStep D a s).1 ^ 2 := by
  refine Int.ediv_mul_cancel ?_
  have split : D - (surdQuotient a s * s.2 - s.1) ^ 2 =
      (D - s.1 ^ 2) + s.2 * (surdQuotient a s * (2 * s.1 - surdQuotient a s * s.2)) := by ring
  rw [split]
  exact dvd_add reduced.dvd (dvd_mul_right _ _)

/-- A step keeps a state reduced. -/
theorem Reduced.step (floor : SurdFloor D a) (reduced : Reduced D a s) :
    Reduced D a (surdStep D a s) := by
  obtain ⟨factor, fits, more⟩ := reduced.quotient
  have mul := reduced.step_mul
  have den := reduced.den_pos
  have le := reduced.le
  have once : s.2 ≤ surdQuotient a s * s.2 := le_mul_of_one_le_left den.le factor
  obtain ⟨P', num⟩ : ∃ P', P' = surdQuotient a s * s.2 - s.1 := ⟨_, rfl⟩
  obtain ⟨Q', den'⟩ : ∃ Q', Q' = (surdStep D a s).2 := ⟨_, rfl⟩
  have shape : surdStep D a s = (P', Q') := Prod.ext num.symm den'.symm
  rw [shape] at mul ⊢
  have below : P' ≤ a := by linarith
  have lower : (a - P') * s.2 < Q' * s.2 := calc
    (a - P') * s.2 ≤ (a - P') * (a + P') := by
      exact mul_le_mul_of_nonneg_left (by linarith) (by linarith)
    _ = a ^ 2 - P' ^ 2 := by ring
    _ < D - P' ^ 2 := by linarith [floor.lower]
    _ = Q' * s.2 := mul.symm
  have upper : Q' * s.2 < (a + 1 + P') * s.2 := calc
    Q' * s.2 = D - P' ^ 2 := mul
    _ < (a + 1) ^ 2 - P' ^ 2 := by linarith [floor.upper]
    _ = (a + 1 + P') * (a + 1 - P') := by ring
    _ ≤ (a + 1 + P') * s.2 := by
      exact mul_le_mul_of_nonneg_left (by linarith) (by linarith [floor.pos])
  refine ⟨?_, below, lt_of_mul_lt_mul_right lower den.le, ?_, ?_⟩
  · show 0 < P'
    linarith
  · exact Int.lt_add_one_iff.mp (by linarith [lt_of_mul_lt_mul_right upper den.le])
  · exact ⟨s.2, mul.symm⟩

/-- A state is recovered from the one behind it. -/
theorem surdStep_injOn (floor : SurdFloor D a) :
    Set.InjOn (surdStep D a) {s | Reduced D a s} := by
  intro s (reduced : Reduced D a s) t (reduced' : Reduced D a t) same
  have positive := (reduced.step floor).den_pos
  have den : s.2 = t.2 := by
    have mul := reduced.step_mul
    rw [same, ← reduced'.step_mul, ← same] at mul
    exact mul_left_cancel₀ positive.ne' mul
  have num : surdQuotient a s * s.2 - s.1 = surdQuotient a t * t.2 - t.1 := congrArg Prod.fst same
  -- The quotient of either state is that of the state behind it, read backwards.
  have back {s : ℤ × ℤ} (reduced : Reduced D a s) :
      surdQuotient a s = (a + (surdQuotient a s * s.2 - s.1)) / s.2 := by
    have le := reduced.le
    have lower := reduced.lower
    have split : a + (surdQuotient a s * s.2 - s.1) = (a - s.1) + surdQuotient a s * s.2 := by ring
    rw [split, Int.add_mul_ediv_right _ _ reduced.den_pos.ne',
      Int.ediv_eq_zero_of_lt (by linarith) lower, zero_add]
  have quotient : surdQuotient a s = surdQuotient a t := by
    rw [back reduced, back reduced', num, den]
  refine Prod.ext ?_ den
  rw [quotient, den] at num
  linarith

/-- There are finitely many reduced states. -/
theorem finite_reduced (D a : ℤ) : {s | Reduced D a s}.Finite := by
  refine ((Set.finite_Icc 0 a).prod (Set.finite_Icc 0 (2 * a))).subset ?_
  intro s reduced
  have den := reduced.den_pos
  obtain ⟨pos, le, -, upper, -⟩ := reduced
  exact ⟨⟨pos.le, le⟩, den.le, by linarith⟩

/-- The expansion leads from the square root's own state to the first one. -/
theorem surdStep_one (a : ℤ) : surdStep D a (a, 1) = (a, D - a ^ 2) := by
  simp [surdStep, surdQuotient]

/-- The expansion comes back to the square root's own state, after an odd number of steps. -/
theorem surd_returns (floor : SurdFloor D a) :
    ∃ k, Odd k ∧ (surdStep D a)^[k] (a, D - a ^ 2) = (a, 1) := by
  let next : {s // Reduced D a s} → {s // Reduced D a s} :=
    fun s => ⟨surdStep D a s.1, s.2.step floor⟩
  have injective : Function.Injective next := by
    intro s t same
    exact Subtype.ext (surdStep_injOn floor s.2 t.2 (congrArg Subtype.val same))
  have : Finite {s // Reduced D a s} := finite_reduced D a
  obtain ⟨n, positive, periodic⟩ := injective.mem_periodicPts ⟨(a, 1), floor.reduced_one⟩
  obtain ⟨m, double⟩ : ∃ m, 2 * n = m + 1 := ⟨2 * n - 1, by omega⟩
  have twice := periodic.mul_const 2
  rw [mul_comm, double] at twice
  have iterate (k : ℕ) (s : {s // Reduced D a s}) : (next^[k] s).1 = (surdStep D a)^[k] s.1 := by
    induction k generalizing s with
    | zero => rfl
    | succ k ih => rw [Function.iterate_succ_apply, Function.iterate_succ_apply, ih]
  refine ⟨m, ⟨n - 1, by omega⟩, ?_⟩
  have back := congrArg Subtype.val twice
  rwa [iterate, Function.iterate_succ_apply, surdStep_one] at back

/-- The partial quotient is twice the floor of the root only in the root's own state. -/
theorem Reduced.quotient_eq_iff (reduced : Reduced D a s) :
    surdQuotient a s = 2 * a ↔ s = (a, 1) := by
  obtain ⟨-, fits, -⟩ := reduced.quotient
  have den := reduced.den_pos
  constructor
  · intro twice
    rw [twice] at fits
    have := reduced.pos
    have := reduced.le
    have one : s.2 = 1 := by nlinarith
    refine Prod.ext ?_ one
    have := reduced.lower
    show s.1 = a
    omega
  · rintro rfl
    simp [surdQuotient, two_mul]

end Steps

/-- Two neighbouring convergents `p₀ / q₀` and `p₁ / q₁` at a state: the first has the norm
`d Q`, and the state behind gives their mixed norm. -/
structure Convergents (D a d : ℤ) (s : ℤ × ℤ) (p₀ q₀ p₁ q₁ : ℤ) : Prop where
  sign : d ^ 2 = 1
  norm : p₀ ^ 2 - D * q₀ ^ 2 = d * s.2
  mixed : p₀ * p₁ - D * (q₀ * q₁) = d * (surdStep D a s).1
  det : (p₀ * q₁ - p₁ * q₀) ^ 2 = 1
  first : 0 < p₀ ∧ 0 < q₀
  second : 0 < p₁ ∧ 0 < q₁

section Convergents

variable {D a d : ℤ} {s : ℤ × ℤ} {p₀ q₀ p₁ q₁ : ℤ}

/-- The convergents with which the expansion starts. -/
theorem SurdFloor.convergents (floor : SurdFloor D a) :
    Convergents D a (-1) (a, D - a ^ 2) a 1 (a * surdQuotient a (a, D - a ^ 2) + 1)
      (surdQuotient a (a, D - a ^ 2)) := by
  have quotient := floor.reduced.quotient.1
  have root := floor.pos
  refine ⟨by norm_num, by ring, ?_, by ring, ⟨root, one_pos⟩, by positivity, quotient⟩
  rw [surdStep]
  ring

/-- The norm of the second convergent has the other sign and the next denominator. -/
theorem Convergents.norm_next (convergents : Convergents D a d s p₀ q₀ p₁ q₁)
    (reduced : Reduced D a s) : p₁ ^ 2 - D * q₁ ^ 2 = -d * (surdStep D a s).2 := by
  have mul := reduced.step_mul
  have product : (d * s.2) * (p₁ ^ 2 - D * q₁ ^ 2) = (d * s.2) * (-d * (surdStep D a s).2) := calc
    (d * s.2) * (p₁ ^ 2 - D * q₁ ^ 2) = (p₀ ^ 2 - D * q₀ ^ 2) * (p₁ ^ 2 - D * q₁ ^ 2) := by
      rw [convergents.norm]
    _ = (p₀ * p₁ - D * (q₀ * q₁)) ^ 2 - D * (p₀ * q₁ - p₁ * q₀) ^ 2 := by ring
    _ = d ^ 2 * (surdStep D a s).1 ^ 2 - D := by rw [convergents.mixed, convergents.det]; ring
    _ = -d ^ 2 * ((surdStep D a s).2 * s.2) := by rw [mul, convergents.sign]; ring
    _ = (d * s.2) * (-d * (surdStep D a s).2) := by ring
  have sign : d ≠ 0 := by
    rintro rfl
    simpa using convergents.sign
  exact mul_left_cancel₀ (mul_ne_zero sign reduced.den_pos.ne') product

/-- A step of the expansion computes the next convergent. -/
theorem Convergents.step (floor : SurdFloor D a) (convergents : Convergents D a d s p₀ q₀ p₁ q₁)
    (reduced : Reduced D a s) :
    Convergents D a (-d) (surdStep D a s) p₁ q₁ (surdQuotient a (surdStep D a s) * p₁ + p₀)
      (surdQuotient a (surdStep D a s) * q₁ + q₀) := by
  have norm := convergents.norm_next reduced
  have quotient := (reduced.step floor).quotient.1
  have numerator : (surdStep D a (surdStep D a s)).1 =
      surdQuotient a (surdStep D a s) * (surdStep D a s).2 - (surdStep D a s).1 := rfl
  obtain ⟨sign, -, mixed, det, ⟨positive, positive'⟩, second, second'⟩ := convergents
  refine ⟨by rw [neg_pow_two, sign], norm, ?_, ?_, ⟨second, second'⟩, by positivity, by positivity⟩
  · rw [numerator]
    linear_combination surdQuotient a (surdStep D a s) * norm + mixed
  · rw [← det]
    ring

end Convergents

end Pbc.Number
