import Mathlib.Algebra.Order.Ring.Abs
import Mathlib.Data.Int.GCD
import Mathlib.Tactic.Linarith
import Mathlib.Tactic.Ring

/-!
# Reduced forms

Positive definite binary quadratic forms that are reduced, and the discriminants for which all
of them are primitive.
-/

namespace Pbc.Number

/-- The form `a x^2 + b x y + c y^2`. -/
@[ext] structure BinaryForm where
  a : ℤ
  b : ℤ
  c : ℤ
deriving DecidableEq

namespace BinaryForm

/-- The discriminant. -/
def disc (f : BinaryForm) : ℤ := f.b ^ 2 - 4 * f.a * f.c

/-- A reduced positive definite form. -/
structure Reduced (f : BinaryForm) : Prop where
  positive : 0 < f.a
  middle : |f.b| ≤ f.a
  last : f.a ≤ f.c
  sign : |f.b| = f.a ∨ f.a = f.c → 0 ≤ f.b

/-- The greatest common divisor of the coefficients. -/
def content (f : BinaryForm) : ℕ := Nat.gcd (Int.gcd f.a f.b) f.c.natAbs

/-- A form whose coefficients have no common divisor. -/
def Primitive (f : BinaryForm) : Prop := f.content = 1

/-- The form with the opposite middle coefficient. -/
def opposite (f : BinaryForm) : BinaryForm := ⟨f.a, -f.b, f.c⟩

/-- A multiple of a form. -/
def scale (g : ℤ) (f : BinaryForm) : BinaryForm := ⟨g * f.a, g * f.b, g * f.c⟩

variable {f : BinaryForm} {D : ℕ}

@[simp] theorem opposite_a : f.opposite.a = f.a := rfl

@[simp] theorem opposite_b : f.opposite.b = -f.b := rfl

@[simp] theorem opposite_c : f.opposite.c = f.c := rfl

@[simp] theorem opposite_opposite : f.opposite.opposite = f := by
  ext
  · rfl
  · exact neg_neg f.b
  · rfl

@[simp] theorem disc_opposite : f.opposite.disc = f.disc := by
  simp only [disc, opposite_a, opposite_b, opposite_c, neg_sq]

@[simp] theorem content_opposite : f.opposite.content = f.content := by
  simp only [content, opposite_a, opposite_b, opposite_c, Int.gcd_neg]

theorem disc_scale (g : ℤ) : (scale g f).disc = g ^ 2 * f.disc := by
  simp only [disc, scale]
  ring

theorem Reduced.scale (reduced : f.Reduced) {g : ℤ} (positive : 0 < g) : (scale g f).Reduced where
  positive := mul_pos positive reduced.positive
  middle := by
    have size : |g * f.b| = g * |f.b| := by rw [abs_mul, abs_of_pos positive]
    rw [BinaryForm.scale, size]
    exact mul_le_mul_of_nonneg_left reduced.middle positive.le
  last := mul_le_mul_of_nonneg_left reduced.last positive.le
  sign := by
    have size : |g * f.b| = g * |f.b| := by rw [abs_mul, abs_of_pos positive]
    have nonzero : g ≠ 0 := positive.ne'
    rintro (border | border)
    · rw [BinaryForm.scale, size] at border
      exact mul_nonneg positive.le (reduced.sign (Or.inl (mul_left_cancel₀ nonzero border)))
    · exact mul_nonneg positive.le (reduced.sign (Or.inr (mul_left_cancel₀ nonzero border)))

theorem dvd_content_scale (g : ℕ) : g ∣ (scale g f).content := by
  apply Nat.dvd_gcd
  · exact Int.dvd_gcd (dvd_mul_right _ _) (dvd_mul_right _ _)
  · exact Int.natCast_dvd.mp (dvd_mul_right _ _)

/-- A form is a multiple of one with content as factor. -/
theorem exists_scale (f : BinaryForm) : ∃ f', f = scale f.content f' := by
  have first : (f.content : ℤ) ∣ f.a :=
    dvd_trans (Int.natCast_dvd_natCast.mpr (Nat.gcd_dvd_left _ _)) (Int.gcd_dvd_left _ _)
  have second : (f.content : ℤ) ∣ f.b :=
    dvd_trans (Int.natCast_dvd_natCast.mpr (Nat.gcd_dvd_left _ _)) (Int.gcd_dvd_right _ _)
  have third : (f.content : ℤ) ∣ f.c := Int.natCast_dvd.mpr (Nat.gcd_dvd_right _ _)
  obtain ⟨a, first⟩ := first
  obtain ⟨b, second⟩ := second
  obtain ⟨c, third⟩ := third
  exact ⟨⟨a, b, c⟩, BinaryForm.ext first second third⟩

/-- Discriminants are 0 or 1 modulo 4. -/
theorem neg_disc_emod_four (f : BinaryForm) : -f.disc % 4 = 0 ∨ -f.disc % 4 = 3 := by
  have shape : -f.disc = 4 * (f.a * f.c) - f.b ^ 2 := by
    rw [disc]
    ring
  rcases Int.even_or_odd' f.b with ⟨k, even | odd⟩
  · left
    have square : f.b ^ 2 = 4 * k ^ 2 := by
      rw [even]
      ring
    omega
  · right
    have square : f.b ^ 2 = 4 * (k ^ 2 + k) + 1 := by
      rw [odd]
      ring
    omega

/-- The middle coefficient is small. -/
theorem Reduced.three_mul_sq_le (reduced : f.Reduced) (disc : f.disc = -D) : 3 * f.b ^ 2 ≤ D := by
  have positive := reduced.positive
  have last := reduced.last
  have square : f.b ^ 2 ≤ f.a * f.a := by
    rw [← sq_abs, sq]
    exact mul_self_le_mul_self (abs_nonneg _) reduced.middle
  have product : f.a * f.a ≤ f.a * f.c := mul_le_mul_of_nonneg_left last positive.le
  rw [BinaryForm.disc] at disc
  linarith

end BinaryForm

/-- The principal form of discriminant `-D`. -/
def principalForm (D : ℕ) : BinaryForm :=
  if D % 4 = 0 then ⟨1, 0, D / 4⟩ else ⟨1, 1, (D + 1) / 4⟩

/-- The minus of a discriminant: 0 or 3 modulo 4. -/
def IsDiscriminant (D : ℕ) : Prop := D % 4 = 0 ∨ D % 4 = 3

/-- A discriminant that is no square times another one. -/
def Fundamental (D : ℕ) : Prop := ∀ g, 2 ≤ g → g ^ 2 ∣ D → ¬IsDiscriminant (D / g ^ 2)

variable {D : ℕ}

theorem principalForm_reduced (positive : 0 < D) (isDisc : IsDiscriminant D) :
    (principalForm D).Reduced ∧ (principalForm D).disc = -D ∧ 0 ≤ (principalForm D).b := by
  rcases isDisc with even | odd
  · rw [principalForm, if_pos even]
    refine ⟨⟨Int.one_pos, ?_, ?_, fun _ => le_refl _⟩, ?_, le_refl _⟩
    · rw [abs_zero]
      exact Int.one_nonneg
    · simp only
      omega
    · simp only [BinaryForm.disc]
      omega
  · rw [principalForm, if_neg (by omega)]
    refine ⟨⟨Int.one_pos, ?_, ?_, fun _ => Int.one_nonneg⟩, ?_, Int.one_nonneg⟩
    · rw [abs_one]
    · simp only
      omega
    · simp only [BinaryForm.disc]
      omega

/-- Where a discriminant is not fundamental, a reduced form has a common divisor. -/
theorem exists_imprimitive (positive : 0 < D) {g : ℕ} (large : 2 ≤ g) (divides : g ^ 2 ∣ D)
    (isDisc : IsDiscriminant (D / g ^ 2)) :
    ∃ f : BinaryForm, f.Reduced ∧ f.disc = -D ∧ 0 ≤ f.b ∧ ¬f.Primitive := by
  obtain ⟨D', rfl⟩ := divides
  have square : 0 < g ^ 2 := Nat.pow_pos (by omega)
  rw [Nat.mul_div_cancel_left _ square] at isDisc
  obtain ⟨reduced, disc, middle⟩ := principalForm_reduced (Nat.pos_of_mul_pos_left positive) isDisc
  have large' : (0 : ℤ) < g := by omega
  refine ⟨BinaryForm.scale g (principalForm D'), reduced.scale large', ?_, ?_, ?_⟩
  · rw [BinaryForm.disc_scale, disc]
    push_cast
    ring
  · exact mul_nonneg large'.le middle
  · intro primitive
    have one := BinaryForm.dvd_content_scale (f := principalForm D') g
    rw [primitive, Nat.dvd_one] at one
    omega

/-- Where a discriminant is fundamental, all reduced forms are primitive. -/
theorem Fundamental.primitive (fundamental : Fundamental D) {f : BinaryForm} (reduced : f.Reduced)
    (disc : f.disc = -D) : f.Primitive := by
  obtain ⟨f', shape⟩ := f.exists_scale
  by_contra imprimitive
  have nonzero : f.content ≠ 0 := by
    intro zero
    have positive := reduced.positive
    rw [shape, zero] at positive
    simp only [BinaryForm.scale, Nat.cast_zero, zero_mul, lt_irrefl] at positive
  have large : 2 ≤ f.content := by
    rw [BinaryForm.Primitive] at imprimitive
    omega
  have product : (D : ℤ) = (f.content : ℤ) ^ 2 * -f'.disc := by
    have scaled := disc
    rw [shape, BinaryForm.disc_scale] at scaled
    linarith
  have square : (0 : ℤ) < (f.content : ℤ) ^ 2 := by positivity
  obtain ⟨D', quotient⟩ : ∃ D' : ℕ, -f'.disc = D' := by
    apply Int.eq_ofNat_of_zero_le
    by_contra negative
    have below := mul_neg_of_pos_of_neg square (not_le.mp negative)
    omega
  have product' : D = f.content ^ 2 * D' := by
    rw [quotient] at product
    exact_mod_cast product
  have residue := f'.neg_disc_emod_four
  rw [quotient] at residue
  refine fundamental _ large ⟨D', product'⟩ ?_
  rw [product', Nat.mul_div_cancel_left _ (Nat.pow_pos (by omega))]
  rcases residue with zero | three
  · left
    omega
  · right
    omega

end Pbc.Number
