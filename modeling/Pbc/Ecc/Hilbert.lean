import Mathlib.Algebra.QuadraticAlgebra.Basic
import Pbc.Algebra.MonicCoefficients
import Pbc.Algebra.Numerals
import Pbc.Number.ReducedForms

/-!
# Hilbert class polynomials

`hilbert_poly` up to the rounding of the coefficients, over any ring in place of the reals. Both
enumerations run over all reduced forms of the discriminant, and not only over the primitive
ones as the comment in the code says; for a fundamental discriminant there are no others.
-/

open Polynomial
open Pbc.Algebra (monicOf hornerFrom hornerFrom_cons hornerFrom_append hornerFrom_singleton
  natDegree_monicOf)
open Pbc.Number (BinaryForm Fundamental IsDiscriminant)

namespace Pbc.Ecc

/-- Complex numbers over a ring of reals, for `mpc_t`. -/
abbrev Mpc (R : Type) [CommRing R] := QuadraticAlgebra R (-1) 0

section Operations

/-- The numbers `h` and `jcount` of the first pass. -/
structure FormCounts where
  h : ℕ
  jcount : ℕ

/-- The block at `step535_3`. -/
def countForm (b t a : ℕ) (n : FormCounts) : FormCounts :=
  if t % a = 0 then
    if a = b ∨ a * a = t ∨ b = 0 then { h := n.h + 1, jcount := n.jcount + 1 }
    else { h := n.h + 2, jcount := n.jcount + 1 }
  else n

/-- The loop of the first pass from `step535_4` on. -/
def countStep4 (b t a : ℕ) (n : FormCounts) : FormCounts :=
  if (a + 1) * (a + 1) ≤ t then countStep4 b t (a + 1) (countForm b t (a + 1) n) else n
termination_by t - a
decreasing_by
  have larger : a + 1 ≤ (a + 1) * (a + 1) := Nat.le_mul_self _
  omega

/-- The first pass, from one `b` on. -/
def countLoop (D B b : ℕ) (n : FormCounts) : FormCounts :=
  let t := (b * b + D) / 4
  let n := if b ≤ 1 then countStep4 b t 1 n else countStep4 b t b (countForm b t b n)
  if b + 2 > B then n else countLoop D B (b + 2) n
termination_by B - b

variable {R : Type} [CommRing R]

/-- The inner loop of `P *= X - j`. -/
def linearLoop (p0 : Mpc R) : Mpc R → List (Mpc R) → List (Mpc R) × Mpc R
  | z1, [] => ([], z1)
  | z1, item :: items =>
      let z0 := z1 * p0
      let (items, z1) := linearLoop p0 item items
      ((item + z0) :: items, z1)

/-- `P *= X - j`. -/
def timesLinear (j : Mpc R) (items : List (Mpc R)) : List (Mpc R) :=
  let p0 := -j
  match items with
  | [] => [p0]
  | first :: items =>
      let (items, z1) := linearLoop p0 first items
      (first + p0) :: items ++ [p0 * z1]

/-- The inner loop of `P *= X^2 - 2 Re(j) X + |j|^2`. -/
def quadraticLoop (p1 p0 : Mpc R) : Mpc R → Mpc R → List (Mpc R) → List (Mpc R) × Mpc R × Mpc R
  | z2, z1, [] => ([], z2, z1)
  | z2, z1, item :: items =>
      let z0 := z1 * p1
      let alpha := z2 * p0 + z0
      let (items, z2, z1) := quadraticLoop p1 p0 z1 item items
      ((item + alpha) :: items, z2, z1)

/-- `P *= X^2 - 2 Re(j) X + |j|^2`. -/
def timesQuadratic (j : Mpc R) (items : List (Mpc R)) : List (Mpc R) :=
  let p1 : Mpc R := ⟨-(j.re * 2), 0⟩
  let p0 : Mpc R := ⟨j.im * j.im + j.re * j.re, 0⟩
  match items with
  | [] => [p1, p0]
  | [first] => [first + p1, first * p1 + p0, p0 * first]
  | first :: second :: items =>
      let (items, z2, z1) := quadraticLoop p1 p0 first second items
      (first + p1) :: (second + first * p1 + p0) :: items ++ [p1 * z1 + z2 * p0, p0 * z1]

/-- What the second pass has done: the forms that it reports, and the list `Pz`. -/
structure Assembly (R : Type) [CommRing R] where
  visited : List BinaryForm
  items : List (Mpc R)

variable (j : ℤ → ℤ → Mpc R)

/-- A form of the second pass; `j` stands for `compute_j`. -/
def assembleForm (b t a : ℕ) (s : Assembly R) : Assembly R where
  visited := s.visited ++ [⟨a, b, (t / a : ℕ)⟩]
  items :=
    if a = b ∨ a * a = t ∨ b = 0 then timesLinear (j a b) s.items
    else timesQuadratic (j a b) s.items

/-- The loop of the second pass from `step3` on. -/
def assembleStep3 (b t a : ℕ) (s : Assembly R) : Assembly R :=
  let s := if t % a ≠ 0 then s else assembleForm j b t a s
  if (a + 1) * (a + 1) ≤ t then assembleStep3 b t (a + 1) s else s
termination_by t - a
decreasing_by
  have larger : a + 1 ≤ (a + 1) * (a + 1) := Nat.le_mul_self _
  omega

/-- The second pass, from one `b` on. -/
def assembleLoop (D B b : ℕ) (s : Assembly R) : Assembly R :=
  let t := (b * b + D) / 4
  let a := if b > 1 then b else 1
  let s := assembleStep3 j b t a s
  if b + 2 > B then s else assembleLoop D B (b + 2) s
termination_by B - b

/-- The bound for `b`. -/
def hilbertBound (D : ℕ) : ℕ := Nat.sqrt (D / 3)

/-- The first pass of `hilbert_poly`. -/
def hilbertCounts (D : ℕ) : FormCounts :=
  countLoop D (hilbertBound D) (D % 2) { h := 1, jcount := 1 }

/-- The second pass. -/
def hilbertAssembly (D : ℕ) : Assembly R :=
  assembleLoop j D (hilbertBound D) (D % 2) { visited := [], items := [] }

end Operations

section Factors

variable {R : Type} [CommRing R]

/-- A linear factor: each new coefficient needs the old one before it. -/
theorem linearLoop_eq {p0 z1 : Mpc R} {items : List (Mpc R)} {q q' : (Mpc R)[X]}
    (before : q' * X + C (z1 * p0) = q * (X + C p0)) :
    hornerFrom q' (linearLoop p0 z1 items).1 * X + C ((linearLoop p0 z1 items).2 * p0) =
      hornerFrom q items * (X + C p0) := by
  induction items generalizing z1 q q' with
  | nil => exact before
  | cons item items ih =>
    have product : q' * X = q * (X + C p0) - C (z1 * p0) := eq_sub_of_add_eq before
    have step : (q' * X + C (item + z1 * p0)) * X + C (item * p0) =
        (q * X + C item) * (X + C p0) := by
      rw [product]
      simp only [map_add, map_mul]
      ring
    exact ih step

theorem monicOf_timesLinear (j : Mpc R) (items : List (Mpc R)) :
    monicOf (timesLinear j items) = monicOf items * (X - C j) := by
  cases items with
  | nil =>
    simp only [timesLinear, monicOf, hornerFrom, List.foldl_cons, List.foldl_nil, map_neg]
    ring
  | cons first items =>
    have start : ((X : (Mpc R)[X]) + C (first + -j)) * X + C (first * -j) =
        (X + C first) * (X + C (-j)) := by
      simp only [map_add, map_mul]
      ring
    have loop : hornerFrom (X + C (first + -j)) (linearLoop (-j) first items).1 * X +
        C ((linearLoop (-j) first items).2 * -j) = hornerFrom (X + C first) items * (X + C (-j)) :=
      linearLoop_eq start
    have new : monicOf (timesLinear j (first :: items)) = hornerFrom (X + C (first + -j))
        (linearLoop (-j) first items).1 * X + C (-j * (linearLoop (-j) first items).2) := by
      have shape : timesLinear j (first :: items) = (first + -j) ::
          ((linearLoop (-j) first items).1 ++ [-j * (linearLoop (-j) first items).2]) := rfl
      rw [shape, monicOf, hornerFrom_cons, hornerFrom_append, hornerFrom_singleton, one_mul]
    have old : monicOf (first :: items) = hornerFrom (X + C first) items := by
      rw [monicOf, hornerFrom_cons, one_mul]
    rw [new, old, mul_comm (-j), loop, map_neg, sub_eq_add_neg]

/-- A quadratic factor: each new coefficient needs the two old ones before it. -/
theorem quadraticLoop_eq (items : List (Mpc R)) {p1 p0 z2 z1 : Mpc R} {q q' : (Mpc R)[X]}
    (before : q' * X ^ 2 + C (p1 * z1 + z2 * p0) * X + C (p0 * z1) = q * (X ^ 2 + C p1 * X + C p0)) :
    hornerFrom q' (quadraticLoop p1 p0 z2 z1 items).1 * X ^ 2 +
        C (p1 * (quadraticLoop p1 p0 z2 z1 items).2.2 +
          (quadraticLoop p1 p0 z2 z1 items).2.1 * p0) * X +
        C (p0 * (quadraticLoop p1 p0 z2 z1 items).2.2) =
      hornerFrom q items * (X ^ 2 + C p1 * X + C p0) := by
  induction items generalizing z2 z1 q q' with
  | nil => exact before
  | cons item items ih =>
    have product : q' * X ^ 2 = q * (X ^ 2 + C p1 * X + C p0) - C (p1 * z1 + z2 * p0) * X - C (p0 * z1) := by
      rw [← before]
      ring
    have step : (q' * X + C (item + (z2 * p0 + z1 * p1))) * X ^ 2 + C (p1 * item + z1 * p0) * X +
        C (p0 * item) = (q * X + C item) * (X ^ 2 + C p1 * X + C p0) := by
      have split : (q' * X + C (item + (z2 * p0 + z1 * p1))) * X ^ 2 =
          q' * X ^ 2 * X + C (item + (z2 * p0 + z1 * p1)) * X ^ 2 := by ring
      rw [split, product]
      simp only [map_add, map_mul]
      ring
    exact ih step

/-- The quadratic factor of a number and its conjugate. -/
theorem conjugate_factor (j : Mpc R) : (X : (Mpc R)[X]) ^ 2 + C ⟨-(j.re * 2), 0⟩ * X +
    C ⟨j.im * j.im + j.re * j.re, 0⟩ = (X - C j) * (X - C (star j)) := by
  have sum : (⟨-(j.re * 2), 0⟩ : Mpc R) = -(j + star j) := by
    ext
    · simp only [QuadraticAlgebra.re_neg, QuadraticAlgebra.re_add, QuadraticAlgebra.re_star]
      ring
    · simp only [QuadraticAlgebra.im_neg, QuadraticAlgebra.im_add, QuadraticAlgebra.im_star]
      ring
  have product : (⟨j.im * j.im + j.re * j.re, 0⟩ : Mpc R) = j * star j := by
    ext
    · simp only [QuadraticAlgebra.re_mul, QuadraticAlgebra.re_star, QuadraticAlgebra.im_star]
      ring
    · simp only [QuadraticAlgebra.im_mul, QuadraticAlgebra.re_star, QuadraticAlgebra.im_star]
      ring
  rw [sum, product]
  simp only [map_neg, map_add, map_mul]
  ring

theorem monicOf_timesQuadratic (j : Mpc R) (items : List (Mpc R)) :
    monicOf (timesQuadratic j items) = monicOf items * ((X - C j) * (X - C (star j))) := by
  rw [← conjugate_factor]
  obtain ⟨p1, sum⟩ : ∃ p1 : Mpc R, p1 = ⟨-(j.re * 2), 0⟩ := ⟨_, rfl⟩
  obtain ⟨p0, product⟩ : ∃ p0 : Mpc R, p0 = ⟨j.im * j.im + j.re * j.re, 0⟩ := ⟨_, rfl⟩
  rw [← sum, ← product]
  cases items with
  | nil =>
    have shape : timesQuadratic j [] = [p1, p0] := by rw [sum, product, timesQuadratic]
    rw [shape]
    simp only [monicOf, hornerFrom, List.foldl_cons, List.foldl_nil]
    ring
  | cons first items =>
    cases items with
    | nil =>
      have shape : timesQuadratic j [first] = [first + p1, first * p1 + p0, p0 * first] := by
        rw [sum, product, timesQuadratic]
      rw [shape]
      simp only [monicOf, hornerFrom, List.foldl_cons, List.foldl_nil, map_add, map_mul]
      ring
    | cons second items =>
      have shape : timesQuadratic j (first :: second :: items) = (first + p1) ::
          (second + first * p1 + p0) :: ((quadraticLoop p1 p0 first second items).1 ++
            [p1 * (quadraticLoop p1 p0 first second items).2.2 +
              (quadraticLoop p1 p0 first second items).2.1 * p0,
             p0 * (quadraticLoop p1 p0 first second items).2.2]) := by
        rw [sum, product, timesQuadratic]
        rfl
      have start : ((X + C (first + p1)) * X + C (second + first * p1 + p0)) * X ^ 2 +
          C (p1 * second + first * p0) * X + C (p0 * second) =
          ((X + C first) * X + C second) * (X ^ 2 + C p1 * X + C p0) := by
        simp only [map_add, map_mul]
        ring
      have loop := quadraticLoop_eq items start
      have old : monicOf (first :: second :: items) =
          hornerFrom ((X + C first) * X + C second) items := by
        rw [monicOf, hornerFrom_cons, hornerFrom_cons, one_mul]
      rw [shape, old, ← loop, monicOf, hornerFrom_cons, hornerFrom_cons, hornerFrom_append, one_mul,
        hornerFrom_cons, hornerFrom_singleton]
      ring

theorem length_linearLoop (p0 z1 : Mpc R) (items : List (Mpc R)) :
    (linearLoop p0 z1 items).1.length = items.length := by
  induction items generalizing z1 with
  | nil => rfl
  | cons item items ih => exact congrArg (· + 1) (ih item)

theorem length_quadraticLoop (p1 p0 z2 z1 : Mpc R) (items : List (Mpc R)) :
    (quadraticLoop p1 p0 z2 z1 items).1.length = items.length := by
  induction items generalizing z2 z1 with
  | nil => rfl
  | cons item items ih => exact congrArg (· + 1) (ih z1 item)

/-- A linear factor adds a coefficient. -/
theorem length_timesLinear (j : Mpc R) (items : List (Mpc R)) :
    (timesLinear j items).length = items.length + 1 := by
  cases items with
  | nil => rfl
  | cons first items =>
    simp only [timesLinear, List.length_append, List.length_cons, List.length_nil, length_linearLoop]

/-- A quadratic factor adds two. -/
theorem length_timesQuadratic (j : Mpc R) (items : List (Mpc R)) :
    (timesQuadratic j items).length = items.length + 2 := by
  cases items with
  | nil => rfl
  | cons first items =>
    cases items with
    | nil => rfl
    | cons second items =>
      simp only [timesQuadratic, List.length_append, List.length_cons, List.length_nil,
        length_quadraticLoop]

end Factors

section Enumeration

/-- The divisors of `t` from `a` up to its root. -/
def divisorsFrom (t a : ℕ) : List ℕ := (List.range' a (Nat.sqrt t + 1 - a)).filter (t % · = 0)

/-- The form that belongs to a divisor. -/
def formAt (b t a : ℕ) : BinaryForm := ⟨a, b, (t / a : ℕ)⟩

/-- A form that has no opposite beside it. -/
def OwnOpposite (f : BinaryForm) : Prop := f.a = f.b ∨ f.a = f.c ∨ f.b = 0

instance decidableOwnOpposite (f : BinaryForm) : Decidable (OwnOpposite f) :=
  inferInstanceAs (Decidable (_ ∨ _ ∨ _))

/-- How many forms a form stands for. -/
def formWeight (f : BinaryForm) : ℕ := if OwnOpposite f then 1 else 2

/-- What the first pass does with a form. -/
def addCount (n : FormCounts) (f : BinaryForm) : FormCounts := ⟨n.h + formWeight f, n.jcount + 1⟩

theorem mem_divisorsFrom {t a d : ℕ} : d ∈ divisorsFrom t a ↔ a ≤ d ∧ d * d ≤ t ∧ d ∣ t := by
  rw [divisorsFrom, List.mem_filter, List.mem_range'_1, decide_eq_true_eq, ← Nat.le_sqrt,
    Nat.dvd_iff_mod_eq_zero]
  constructor
  · rintro ⟨⟨lower, upper⟩, divides⟩
    exact ⟨lower, by omega, divides⟩
  · rintro ⟨lower, upper, divides⟩
    exact ⟨⟨lower, by omega⟩, divides⟩

theorem divisorsFrom_nil {t a : ℕ} (above : ¬a * a ≤ t) : divisorsFrom t a = [] := by
  rw [← Nat.le_sqrt] at above
  have none : Nat.sqrt t + 1 - a = 0 := by omega
  rw [divisorsFrom, none]
  rfl

theorem divisorsFrom_cons {t a : ℕ} (inside : a * a ≤ t) : divisorsFrom t a =
    if t % a = 0 then a :: divisorsFrom t (a + 1) else divisorsFrom t (a + 1) := by
  rw [← Nat.le_sqrt] at inside
  have some : Nat.sqrt t + 1 - a = Nat.sqrt t + 1 - (a + 1) + 1 := by omega
  rw [divisorsFrom, some, List.range'_succ, List.filter_cons]
  simp only [decide_eq_true_eq]
  rfl

theorem ownOpposite_formAt {b t a : ℕ} (positive : 0 < a) (divides : t % a = 0) :
    OwnOpposite (formAt b t a) ↔ a = b ∨ a * a = t ∨ b = 0 := by
  obtain ⟨c, rfl⟩ := Nat.dvd_of_mod_eq_zero divides
  have quotient : a * c / a = c := Nat.mul_div_cancel_left _ positive
  simp only [OwnOpposite, formAt, quotient, Nat.cast_inj, Nat.cast_eq_zero, mul_right_inj' positive.ne']

theorem countForm_eq {b t a : ℕ} (positive : 0 < a) (n : FormCounts) :
    countForm b t a n = if t % a = 0 then addCount n (formAt b t a) else n := by
  rw [countForm]
  split
  · rename_i divides
    simp only [addCount, formWeight, ownOpposite_formAt positive divides]
    split
    · rfl
    · rfl
  · rfl

/-- The inner loop of the first pass counts the forms that are left. -/
theorem countStep4_eq (b t a : ℕ) (n : FormCounts) : countStep4 b t a n =
    ((divisorsFrom t (a + 1)).map (formAt b t)).foldl addCount n := by
  induction a, n using countStep4.induct b t with
  | case1 a n more ih =>
    rw [countStep4, if_pos more, ih, divisorsFrom_cons more, countForm_eq (Nat.succ_pos a)]
    split
    · rw [List.map_cons, List.foldl_cons]
    · rfl
  | case2 a n last =>
    rw [countStep4, if_neg last, divisorsFrom_nil last]
    rfl

variable {R : Type} [CommRing R] (j : ℤ → ℤ → Mpc R)

/-- What the second pass does with a form. -/
def addForm (s : Assembly R) (f : BinaryForm) : Assembly R where
  visited := s.visited ++ [f]
  items := if OwnOpposite f then timesLinear (j f.a f.b) s.items else timesQuadratic (j f.a f.b) s.items

theorem assembleForm_eq {b t a : ℕ} (positive : 0 < a) (divides : t % a = 0) (s : Assembly R) :
    assembleForm j b t a s = addForm j s (formAt b t a) := by
  simp only [assembleForm, addForm, ownOpposite_formAt positive divides]
  rfl

/-- The inner loop of the second pass takes the same forms. -/
theorem assembleStep3_eq {b t a : ℕ} (positive : 0 < a) (inside : a * a ≤ t) (s : Assembly R) :
    assembleStep3 j b t a s = ((divisorsFrom t a).map (formAt b t)).foldl (addForm j) s := by
  induction a, s using assembleStep3.induct j b t with
  | case1 a s after more ih =>
    have step : assembleStep3 j b t a s = assembleStep3 j b t (a + 1) after := by
      rw [assembleStep3, if_pos more]
      rfl
    rw [step, ih (Nat.succ_pos a) more, divisorsFrom_cons inside]
    by_cases divides : t % a = 0
    · have taken : after = addForm j s (formAt b t a) :=
        (dif_neg (not_not.mpr divides)).trans (assembleForm_eq j positive divides s)
      rw [if_pos divides, List.map_cons, List.foldl_cons, taken]
    · have skipped : after = s := dif_pos divides
      rw [if_neg divides, skipped]
  | case2 a s last =>
    rw [assembleStep3, if_neg last, divisorsFrom_cons inside, divisorsFrom_nil last]
    by_cases divides : t % a = 0
    · rw [if_pos divides, if_neg (not_not.mpr divides)]
      exact assembleForm_eq j positive divides s
    · rw [if_neg divides, if_pos divides]
      rfl

/-- The middle coefficients from `b` on. -/
def middlesFrom (B b : ℕ) : List ℕ := List.range' b ((B - b) / 2 + 1) 2

/-- The forms with one middle coefficient. -/
def formsAt (D b : ℕ) : List BinaryForm :=
  (divisorsFrom ((b * b + D) / 4) (max b 1)).map (formAt b ((b * b + D) / 4))

/-- The forms that both passes run over. -/
def hilbertForms (D : ℕ) : List BinaryForm :=
  (middlesFrom (hilbertBound D) (D % 2)).flatMap (formsAt D)

theorem middlesFrom_last {B b : ℕ} (last : b + 2 > B) : middlesFrom B b = [b] := by
  have none : (B - b) / 2 = 0 := by omega
  rw [middlesFrom, none]
  rfl

theorem middlesFrom_cons {B b : ℕ} (more : ¬b + 2 > B) :
    middlesFrom B b = b :: middlesFrom B (b + 2) := by
  have some : (B - b) / 2 = (B - (b + 2)) / 2 + 1 := by omega
  rw [middlesFrom, some, List.range'_succ]
  rfl

theorem mem_middlesFrom {B b x : ℕ} (inside : b ≤ B) :
    x ∈ middlesFrom B b ↔ b ≤ x ∧ x ≤ B ∧ x % 2 = b % 2 := by
  rw [middlesFrom, List.mem_range']
  constructor
  · rintro ⟨i, small, rfl⟩
    exact ⟨by omega, by omega, by omega⟩
  · rintro ⟨lower, upper, parity⟩
    exact ⟨(x - b) / 2, by omega, by omega⟩

variable {D : ℕ}

theorem le_hilbertBound {b : ℕ} : b ≤ hilbertBound D ↔ 3 * (b * b) ≤ D := by
  rw [hilbertBound, Nat.le_sqrt, Nat.le_div_iff_mul_le (by decide), mul_comm]

/-- The first candidate for `a` is small enough. -/
theorem first_inside (isDisc : IsDiscriminant D) (positive : 0 < D) {b : ℕ} (inside : b ≤ hilbertBound D)
    (parity : b % 2 = D % 2) : max b 1 * max b 1 ≤ (b * b + D) / 4 := by
  rw [le_hilbertBound] at inside
  rcases isDisc with even | odd
  · rcases Nat.eq_zero_or_pos b with rfl | some
    · have four : 4 ≤ D := by omega
      rw [Nat.le_div_iff_mul_le (by decide)]
      simpa using four
    · rw [max_eq_left some, Nat.le_div_iff_mul_le (by decide)]
      omega
  · have some : 1 ≤ b := by omega
    rw [max_eq_left some, Nat.le_div_iff_mul_le (by decide)]
    omega

theorem start_inside (large : 3 ≤ D) : D % 2 ≤ hilbertBound D := by
  have small : D % 2 ≤ 1 := Nat.le_of_lt_succ (Nat.mod_lt D (by decide))
  have square : D % 2 * (D % 2) ≤ 1 := Nat.mul_le_mul small small
  rw [le_hilbertBound]
  omega

/-- The forms of one middle coefficient, in the second pass. -/
theorem assembleStep3_formsAt (isDisc : IsDiscriminant D) (positive : 0 < D) {b : ℕ} (s : Assembly R)
    (inside : b ≤ hilbertBound D) (parity : b % 2 = D % 2) :
    assembleStep3 j b ((b * b + D) / 4) (if b > 1 then b else 1) s =
      (formsAt D b).foldl (addForm j) s := by
  have first : (if b > 1 then b else 1) = max b 1 := by
    split
    · omega
    · omega
  rw [first, assembleStep3_eq j (by omega) (first_inside isDisc positive inside parity)]
  rfl

/-- The second pass takes the forms, one after the other. -/
theorem assembleLoop_eq (isDisc : IsDiscriminant D) (positive : 0 < D) {b : ℕ} (s : Assembly R)
    (inside : b ≤ hilbertBound D) (parity : b % 2 = D % 2) :
    assembleLoop j D (hilbertBound D) b s =
      ((middlesFrom (hilbertBound D) b).flatMap (formsAt D)).foldl (addForm j) s := by
  induction b, s using assembleLoop.induct j D (hilbertBound D) with
  | case1 b s last =>
    rw [assembleLoop, middlesFrom_last last, List.flatMap_singleton]
    simp only [if_pos last]
    exact assembleStep3_formsAt j isDisc positive s inside parity
  | case2 b s t a after more ih =>
    have step : assembleLoop j D (hilbertBound D) b s =
        assembleLoop j D (hilbertBound D) (b + 2) after := by
      rw [assembleLoop]
      exact if_neg more
    have state : after = (formsAt D b).foldl (addForm j) s :=
      assembleStep3_formsAt j isDisc positive s inside parity
    rw [step, ih (by omega) (by omega), state, middlesFrom_cons more, List.flatMap_cons,
      List.foldl_append]

theorem hilbertAssembly_eq (isDisc : IsDiscriminant D) (large : 3 ≤ D) :
    hilbertAssembly j D = (hilbertForms D).foldl (addForm j) { visited := [], items := [] } := by
  exact assembleLoop_eq j isDisc (by omega) _ (start_inside large) (Nat.mod_mod D 2)

/-- The forms of one middle coefficient, in the first pass. -/
theorem countStep4_formsAt (isDisc : IsDiscriminant D) (positive : 0 < D) {b : ℕ} (n : FormCounts)
    (inside : b ≤ hilbertBound D) (parity : b % 2 = D % 2) (later : 2 ≤ b) :
    (if b ≤ 1 then countStep4 b ((b * b + D) / 4) 1 n
      else countStep4 b ((b * b + D) / 4) b (countForm b ((b * b + D) / 4) b n)) =
      (formsAt D b).foldl addCount n := by
  have first := first_inside isDisc positive inside parity
  have self : max b 1 = b := max_eq_left (by omega)
  rw [self] at first
  rw [if_neg (by omega), countStep4_eq, countForm_eq (by omega), formsAt, self, divisorsFrom_cons first]
  split
  · rw [List.map_cons, List.foldl_cons]
  · rfl

/-- From the second middle coefficient on, the first pass counts all forms. -/
theorem countLoop_eq (isDisc : IsDiscriminant D) (positive : 0 < D) {b : ℕ} (n : FormCounts)
    (inside : b ≤ hilbertBound D) (parity : b % 2 = D % 2) (later : 2 ≤ b) :
    countLoop D (hilbertBound D) b n =
      ((middlesFrom (hilbertBound D) b).flatMap (formsAt D)).foldl addCount n := by
  induction b, n using countLoop.induct D (hilbertBound D) with
  | case1 b n last =>
    rw [countLoop, middlesFrom_last last, List.flatMap_singleton]
    simp only [if_pos last]
    exact countStep4_formsAt isDisc positive n inside parity later
  | case2 b n t after more ih =>
    have step : countLoop D (hilbertBound D) b n = countLoop D (hilbertBound D) (b + 2) after := by
      rw [countLoop]
      exact if_neg more
    have state : after = (formsAt D b).foldl addCount n :=
      countStep4_formsAt isDisc positive n inside parity later
    rw [step, ih (by omega) (by omega) (by omega), state, middlesFrom_cons more, List.flatMap_cons,
      List.foldl_append]

/-- The count that the first pass starts with is that of the principal form. -/
theorem hilbertCounts_eq (isDisc : IsDiscriminant D) (large : 3 ≤ D) :
    hilbertCounts D = (hilbertForms D).foldl addCount { h := 0, jcount := 0 } := by
  have small : D % 2 ≤ 1 := Nat.le_of_lt_succ (Nat.mod_lt D (by decide))
  have first := first_inside isDisc (by omega) (start_inside large) (Nat.mod_mod D 2)
  obtain ⟨b, start⟩ : ∃ b, b = D % 2 := ⟨_, rfl⟩
  have parity : b % 2 = D % 2 := by omega
  rw [← start] at small first
  have self : max b 1 = 1 := max_eq_right small
  rw [self] at first
  have own : OwnOpposite (formAt b ((b * b + D) / 4) 1) := by
    rw [ownOpposite_formAt Nat.one_pos (Nat.mod_one _)]
    omega
  have principal : addCount { h := 0, jcount := 0 } (formAt b ((b * b + D) / 4) 1) =
      { h := 1, jcount := 1 } := by
    rw [addCount, formWeight, if_pos own]
  have body : (if b ≤ 1 then countStep4 b ((b * b + D) / 4) 1 { h := 1, jcount := 1 }
      else countStep4 b ((b * b + D) / 4) b (countForm b ((b * b + D) / 4) b { h := 1, jcount := 1 })) =
      (formsAt D b).foldl addCount { h := 0, jcount := 0 } := by
    rw [if_pos small, countStep4_eq, formsAt, self, divisorsFrom_cons first, if_pos (Nat.mod_one _),
      List.map_cons, List.foldl_cons, principal]
  rw [hilbertCounts, hilbertForms, ← start, countLoop]
  simp only [body]
  by_cases last : b + 2 > hilbertBound D
  · rw [if_pos last, middlesFrom_last last, List.flatMap_singleton]
  · rw [if_neg last, middlesFrom_cons last, List.flatMap_cons, List.foldl_append]
    exact countLoop_eq isDisc (by omega) _ (not_lt.mp last) (by omega) (by omega)

theorem mem_formsAt {b : ℕ} {f : BinaryForm} : f ∈ formsAt D b ↔
    ∃ a, max b 1 ≤ a ∧ a * a ≤ (b * b + D) / 4 ∧ a ∣ (b * b + D) / 4 ∧
      f = formAt b ((b * b + D) / 4) a := by
  simp only [formsAt, List.mem_map, mem_divisorsFrom]
  constructor
  · rintro ⟨a, ⟨lower, upper, divides⟩, rfl⟩
    exact ⟨a, lower, upper, divides, rfl⟩
  · rintro ⟨a, lower, upper, divides, rfl⟩
    exact ⟨a, ⟨lower, upper, divides⟩, rfl⟩

theorem sq_mod_four (b : ℕ) : b * b % 4 = b % 2 := by
  rcases Nat.even_or_odd' b with ⟨k, even | odd⟩
  · have square : b * b = 4 * (k * k) := by
      rw [even]
      ring
    omega
  · have square : b * b = 4 * (k * k + k) + 1 := by
      rw [odd]
      ring
    omega

/-- The product of the outer coefficients. -/
theorem quarter_eq (isDisc : IsDiscriminant D) {b : ℕ} (parity : b % 2 = D % 2) :
    4 * ((b * b + D) / 4) = b * b + D := by
  have square := sq_mod_four b
  rcases isDisc with zero | three
  · omega
  · omega

/-- The forms that are listed for a middle coefficient are reduced. -/
theorem reduced_of_mem_formsAt (isDisc : IsDiscriminant D) {b : ℕ} (parity : b % 2 = D % 2)
    {f : BinaryForm} (form : f ∈ formsAt D b) : (f.Reduced ∧ f.disc = -D) ∧ 0 ≤ f.b := by
  obtain ⟨a, lower, root, ⟨c, divides⟩, rfl⟩ := mem_formsAt.mp form
  have positive : 0 < a := by omega
  have quarter := quarter_eq isDisc parity
  rw [divides] at root quarter
  have quotient : (b * b + D) / 4 / a = c := by rw [divides, Nat.mul_div_cancel_left _ positive]
  have last : a ≤ c := Nat.le_of_mul_le_mul_left root positive
  simp only [formAt, quotient]
  refine ⟨⟨⟨Int.natCast_pos.mpr positive, ?_, Int.ofNat_le.mpr last, fun _ => ?_⟩, ?_⟩, ?_⟩
  · rw [Nat.abs_cast]
    exact Int.ofNat_le.mpr (le_trans (le_max_left _ _) lower)
  · exact Int.natCast_nonneg _
  · have equation : (4 : ℤ) * (a * c) = b * b + D := by exact_mod_cast quarter
    rw [BinaryForm.disc]
    linarith
  · exact Int.natCast_nonneg _

/-- A reduced form with a middle coefficient that is not negative, by natural numbers. -/
theorem exists_of_reduced (isDisc : IsDiscriminant D) {f : BinaryForm} (reduced : f.Reduced)
    (disc : f.disc = -D) (middle : 0 ≤ f.b) :
    ∃ a b c : ℕ, f = ⟨a, b, c⟩ ∧ 0 < a ∧ b ≤ a ∧ a ≤ c ∧ 3 * (b * b) ≤ D ∧ b % 2 = D % 2 ∧
      (b * b + D) / 4 = a * c := by
  have small := reduced.three_mul_sq_le disc
  have positive := reduced.positive
  have bounded := reduced.middle
  have last := reduced.last
  obtain ⟨a, b, c⟩ := f
  simp only at middle small positive bounded last
  obtain ⟨b, rfl⟩ := Int.eq_ofNat_of_zero_le middle
  obtain ⟨a, rfl⟩ := Int.eq_ofNat_of_zero_le positive.le
  obtain ⟨c, rfl⟩ := Int.eq_ofNat_of_zero_le (positive.le.trans last)
  rw [Nat.abs_cast] at bounded
  have equation : 4 * (a * c) = b * b + D := by
    rw [BinaryForm.disc] at disc
    have cast : (4 : ℤ) * (a * c) = b * b + D := by linarith
    exact_mod_cast cast
  have bound : 3 * (b * b) ≤ D := by
    have square : 3 * ((b : ℤ) * b) ≤ D := by
      rw [← sq]
      exact small
    exact_mod_cast square
  have square := sq_mod_four b
  refine ⟨a, b, c, rfl, by exact_mod_cast positive, by exact_mod_cast bounded,
    by exact_mod_cast last, bound, ?_, ?_⟩
  · rcases isDisc with zero | three
    · omega
    · omega
  · omega

/-- Both passes run over the reduced forms with a middle coefficient that is not negative. -/
theorem mem_hilbertForms (isDisc : IsDiscriminant D) (large : 3 ≤ D) {f : BinaryForm} :
    f ∈ hilbertForms D ↔ (f.Reduced ∧ f.disc = -D) ∧ 0 ≤ f.b := by
  rw [hilbertForms, List.mem_flatMap]
  constructor
  · rintro ⟨b, member, form⟩
    obtain ⟨-, -, parity⟩ := (mem_middlesFrom (start_inside large)).mp member
    rw [Nat.mod_mod] at parity
    exact reduced_of_mem_formsAt isDisc parity form
  · rintro ⟨⟨reduced, disc⟩, middle⟩
    obtain ⟨a, b, c, rfl, positive, bounded, last, small, parity, quarter⟩ :=
      exists_of_reduced isDisc reduced disc middle
    refine ⟨b, (mem_middlesFrom (start_inside large)).mpr ⟨?_, le_hilbertBound.mpr small, ?_⟩,
      mem_formsAt.mpr ⟨a, max_le bounded positive, ?_, ?_, ?_⟩⟩
    · omega
    · rw [Nat.mod_mod, parity]
    · rw [quarter]
      exact Nat.mul_le_mul_left a last
    · rw [quarter]
      exact dvd_mul_right _ _
    · rw [formAt, quarter, Nat.mul_div_cancel_left _ positive]

/-- No form is taken twice. -/
theorem nodup_hilbertForms (D : ℕ) : (hilbertForms D).Nodup := by
  rw [hilbertForms, List.nodup_flatMap]
  constructor
  · intro b _
    refine List.Nodup.map ?_ (List.Nodup.filter _ List.nodup_range')
    intro a a' same
    exact Nat.cast_injective (congrArg BinaryForm.a same)
  · have distinct : (middlesFrom (hilbertBound D) (D % 2)).Nodup := List.nodup_range' 2
    refine List.Pairwise.imp ?_ distinct
    intro b b' other f member member'
    obtain ⟨a, -, -, -, rfl⟩ := mem_formsAt.mp member
    obtain ⟨a', -, -, -, same⟩ := mem_formsAt.mp member'
    exact other (Nat.cast_injective (congrArg BinaryForm.b same))

/-- What the second pass makes of a list of forms. -/
theorem foldl_addForm (forms : List BinaryForm) (s : Assembly R) :
    (forms.foldl (addForm j) s).visited = s.visited ++ forms ∧
      (forms.foldl (addForm j) s).items.length = s.items.length + (forms.map formWeight).sum := by
  induction forms generalizing s with
  | nil => exact ⟨(List.append_nil _).symm, rfl⟩
  | cons f forms ih =>
    obtain ⟨visited, length⟩ := ih (addForm j s f)
    have weight : (addForm j s f).items.length = s.items.length + formWeight f := by
      rw [addForm, formWeight]
      split
      · exact length_timesLinear _ _
      · exact length_timesQuadratic _ _
    rw [List.foldl_cons, List.map_cons, List.sum_cons]
    refine ⟨?_, ?_⟩
    · rw [visited, addForm, List.append_assoc, List.singleton_append]
    · rw [length, weight, Nat.add_assoc]

theorem foldl_addCount (forms : List BinaryForm) (n : FormCounts) :
    forms.foldl addCount n = ⟨n.h + (forms.map formWeight).sum, n.jcount + forms.length⟩ := by
  induction forms generalizing n with
  | nil => rfl
  | cons f forms ih =>
    rw [List.foldl_cons, ih, addCount, List.map_cons, List.sum_cons, List.length_cons]
    simp only [Nat.add_assoc, Nat.add_comm 1]

/-- A form, and its opposite unless that is equivalent to it. -/
def withOpposite (f : BinaryForm) : List BinaryForm := if OwnOpposite f then [f] else [f, f.opposite]

/-- The factor of a form. -/
noncomputable def formFactor (f : BinaryForm) : (Mpc R)[X] := X - C (j f.a f.b)

theorem foldl_addForm_items (conj : ∀ a b, j a (-b) = star (j a b)) (forms : List BinaryForm)
    (s : Assembly R) : monicOf (forms.foldl (addForm j) s).items =
      monicOf s.items * ((forms.flatMap withOpposite).map (formFactor j)).prod := by
  induction forms generalizing s with
  | nil => exact (mul_one _).symm
  | cons f forms ih =>
    have step : monicOf (addForm j s f).items =
        monicOf s.items * ((withOpposite f).map (formFactor j)).prod := by
      rw [addForm, withOpposite]
      split
      · rw [monicOf_timesLinear, List.map_singleton, List.prod_singleton, formFactor]
      · rw [monicOf_timesQuadratic, List.map_cons, List.map_singleton, List.prod_cons,
          List.prod_singleton, formFactor, formFactor, BinaryForm.opposite_a, BinaryForm.opposite_b, conj]
    rw [List.foldl_cons, ih, step, List.flatMap_cons, List.map_append, List.prod_append, mul_assoc]

theorem mem_withOpposite {f g : BinaryForm} :
    f ∈ withOpposite g ↔ f = g ∨ ¬OwnOpposite g ∧ f = g.opposite := by
  rw [withOpposite]
  split
  · rename_i own
    rw [List.mem_singleton]
    exact ⟨Or.inl, fun either => either.elim id fun other => absurd own other.1⟩
  · rename_i own
    rw [List.mem_cons, List.mem_singleton]
    exact or_congr Iff.rfl ⟨fun same => ⟨own, same⟩, And.right⟩

/-- With their opposites these are all reduced forms. -/
theorem mem_flatMap_withOpposite (isDisc : IsDiscriminant D) (large : 3 ≤ D) {f : BinaryForm} :
    f ∈ (hilbertForms D).flatMap withOpposite ↔ f.Reduced ∧ f.disc = -D := by
  rw [List.mem_flatMap]
  constructor
  · rintro ⟨g, member, mirror⟩
    obtain ⟨⟨reduced, disc⟩, middle⟩ := (mem_hilbertForms isDisc large).mp member
    rcases mem_withOpposite.mp mirror with rfl | ⟨other, rfl⟩
    · exact ⟨reduced, disc⟩
    · refine ⟨⟨reduced.positive, ?_, reduced.last, ?_⟩, ?_⟩
      · rw [BinaryForm.opposite_b, abs_neg]
        exact reduced.middle
      · rw [BinaryForm.opposite_b, abs_neg, abs_of_nonneg middle]
        rintro (border | border)
        · exact absurd (Or.inl border.symm) other
        · exact absurd (Or.inr (Or.inl border)) other
      · rw [BinaryForm.disc_opposite, disc]
  · rintro ⟨reduced, disc⟩
    rcases le_or_gt 0 f.b with middle | negative
    · exact ⟨f, (mem_hilbertForms isDisc large).mpr ⟨⟨reduced, disc⟩, middle⟩, mem_withOpposite.mpr (Or.inl rfl)⟩
    · have inside : |f.b| ≠ f.a ∧ f.a ≠ f.c := by
        constructor
        · exact fun border => absurd (reduced.sign (Or.inl border)) (not_le.mpr negative)
        · exact fun border => absurd (reduced.sign (Or.inr border)) (not_le.mpr negative)
      refine ⟨f.opposite, (mem_hilbertForms isDisc large).mpr ⟨⟨⟨reduced.positive, ?_, reduced.last, ?_⟩, ?_⟩, ?_⟩,
        mem_withOpposite.mpr (Or.inr ⟨?_, BinaryForm.opposite_opposite.symm⟩)⟩
      · rw [BinaryForm.opposite_b, abs_neg]
        exact reduced.middle
      · intro _
        exact (neg_pos.mpr negative).le
      · rw [BinaryForm.disc_opposite, disc]
      · exact (neg_pos.mpr negative).le
      · rintro (border | border | border)
        · exact inside.1 ((abs_of_neg negative).trans border.symm)
        · exact inside.2 border
        · exact negative.ne (neg_eq_zero.mp border)

theorem nodup_flatMap_withOpposite (isDisc : IsDiscriminant D) (large : 3 ≤ D) :
    ((hilbertForms D).flatMap withOpposite).Nodup := by
  rw [List.nodup_flatMap]
  constructor
  · intro f _
    rw [withOpposite]
    split
    · exact List.nodup_singleton f
    · rename_i own
      rw [List.nodup_cons, List.mem_singleton]
      refine ⟨?_, List.nodup_singleton _⟩
      intro same
      have middle : f.b = -f.b := congrArg BinaryForm.b same
      exact own (Or.inr (Or.inr (by omega)))
  · have middles : ∀ f ∈ hilbertForms D, 0 ≤ f.b := fun f member =>
      ((mem_hilbertForms isDisc large).mp member).2
    refine List.Pairwise.imp_of_mem ?_ (nodup_hilbertForms D)
    intro f g member member' other h mirror mirror'
    have middle := middles f member
    have middle' := middles g member'
    rcases mem_withOpposite.mp mirror with rfl | ⟨own, rfl⟩
    · rcases mem_withOpposite.mp mirror' with same | ⟨own', same⟩
      · exact other same
      · have opposite : h.b = -g.b := congrArg BinaryForm.b same
        exact own' (Or.inr (Or.inr (by omega)))
    · rcases mem_withOpposite.mp mirror' with same | ⟨own', same⟩
      · have opposite : -f.b = g.b := congrArg BinaryForm.b same
        exact own (Or.inr (Or.inr (by omega)))
      · have equal := congrArg BinaryForm.opposite same
        rw [BinaryForm.opposite_opposite, BinaryForm.opposite_opposite] at equal
        exact other equal

end Enumeration

section Assembly

variable {R : Type} [CommRing R] {j : ℤ → ℤ → Mpc R} {D : ℕ}

/-- A primitive reduced form of discriminant `-D`. -/
def PrimitiveReduced (D : ℕ) (f : BinaryForm) : Prop := (f.Reduced ∧ f.disc = -D) ∧ f.Primitive

/-- What `hilbert_poly` is to do: it takes each primitive reduced form with a middle coefficient that
is not negative once, its list holds the coefficients of the product over all primitive reduced
forms, and the first pass counts them. -/
structure HilbertRight (j : ℤ → ℤ → Mpc R) (D : ℕ) : Prop where
  nodup : (hilbertAssembly j D).visited.Nodup
  visits : ∀ f, f ∈ (hilbertAssembly j D).visited ↔ PrimitiveReduced D f ∧ 0 ≤ f.b
  product : ∃ forms : Finset BinaryForm, (∀ f, f ∈ forms ↔ PrimitiveReduced D f) ∧
    monicOf (hilbertAssembly j D).items = ∏ f ∈ forms, (X - C (j f.a f.b))
  degree : (hilbertAssembly j D).items.length = (hilbertCounts D).h ∧
    (monicOf (hilbertAssembly j D).items).natDegree = (hilbertCounts D).h

/-- The class polynomial is put together as it should be exactly for fundamental discriminants. -/
theorem hilbertPoly_iff [Nontrivial R] (large : 3 ≤ D) (isDisc : IsDiscriminant D)
    (conj : ∀ a b, j a (-b) = star (j a b)) : HilbertRight j D ↔ Fundamental D := by
  obtain ⟨visited, length⟩ := foldl_addForm j (hilbertForms D) { visited := [], items := [] }
  rw [← hilbertAssembly_eq j isDisc large] at visited length
  rw [List.nil_append] at visited
  constructor
  · intro right g two divides isDisc'
    obtain ⟨f, reduced, disc, middle, imprimitive⟩ :=
      Pbc.Number.exists_imprimitive (by omega) two divides isDisc'
    have member := (mem_hilbertForms isDisc large).mpr ⟨⟨reduced, disc⟩, middle⟩
    rw [← visited] at member
    exact imprimitive ((right.visits f).mp member).1.2
  · intro fundamental
    have primitive (f : BinaryForm) : PrimitiveReduced D f ↔ f.Reduced ∧ f.disc = -D :=
      ⟨And.left, fun form => ⟨form, fundamental.primitive form.1 form.2⟩⟩
    have counts : (hilbertAssembly j D).items.length = (hilbertCounts D).h := by
      rw [length, hilbertCounts_eq isDisc large, foldl_addCount]
      rfl
    refine ⟨?_, ?_, ?_, counts, ?_⟩
    · rw [visited]
      exact nodup_hilbertForms D
    · intro f
      rw [visited, primitive]
      exact mem_hilbertForms isDisc large
    · refine ⟨((hilbertForms D).flatMap withOpposite).toFinset, ?_, ?_⟩
      · intro f
        rw [List.mem_toFinset, primitive]
        exact mem_flatMap_withOpposite isDisc large
      · rw [List.prod_toFinset _ (nodup_flatMap_withOpposite isDisc large), hilbertAssembly_eq j isDisc large,
          foldl_addForm_items j conj]
        exact one_mul _
    · rw [natDegree_monicOf, counts]

/-- The discriminant -3 is fundamental. -/
theorem fundamental_three : Fundamental 3 := by
  intro g two divides _
  have small := Nat.le_of_dvd (by decide) divides
  have square : 2 ^ 2 ≤ g ^ 2 := Nat.pow_le_pow_left two 2
  omega

/-- The class polynomial of discriminant -3, for a `j` that is 0. -/
theorem hilbertPoly_three : HilbertRight (fun _ _ => (0 : Mpc ℤ)) 3 := by
  have conj (a b : ℤ) : (0 : Mpc ℤ) = star 0 := (star_zero _).symm
  exact (hilbertPoly_iff (le_refl 3) (Or.inr rfl) conj).mpr fundamental_three

/-- For the discriminant -12 the form `2 x^2 + 2 x y + 2 y^2` is taken too. -/
theorem hilbertPoly_twelve : ¬HilbertRight (fun _ _ => (0 : Mpc ℤ)) 12 := by
  intro right
  have isDisc : IsDiscriminant 12 := Or.inl rfl
  have taken : (⟨2, 2, 2⟩ : BinaryForm) ∈ hilbertForms 12 := by
    rw [mem_hilbertForms isDisc (by decide)]
    exact ⟨⟨⟨by decide, by decide, by decide, by decide⟩, by decide⟩, by decide⟩
  have visited := (foldl_addForm (fun _ _ => (0 : Mpc ℤ)) (hilbertForms 12)
    { visited := [], items := [] }).1
  rw [← hilbertAssembly_eq _ isDisc (by decide), List.nil_append] at visited
  rw [← visited] at taken
  have primitive : BinaryForm.Primitive ⟨2, 2, 2⟩ := ((right.visits _).mp taken).1.2
  revert primitive
  rw [BinaryForm.Primitive]
  decide

end Assembly

end Pbc.Ecc
