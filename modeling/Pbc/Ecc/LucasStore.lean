import Pbc.Arith.QuadraticStore
import Pbc.Ecc.Lucas

/-!
# Powers of unitary elements on objects

The two routines for powers of elements of norm one on the objects of a program, over any field.
The temporaries are the coordinates of the objects themselves: the ladder runs in those of the
result, its constants are those of a third object, and the element that is raised is overwritten.
-/

open Pbc.Arith Pbc.Gmp

namespace Pbc.Ecc

/-- The methods of a field for quotients and halves, its own ones or the generic ones. -/
class DivisionMethods (K : Type*) [Field K] where
  div : K → K → Except Exit K
  halve : K → Except Exit K
  div_ok : ∀ (a : K) {b : K}, b ≠ 0 → div a b = .ok (a / b)
  halve_ok : (2 : K) ≠ 0 → ∀ a : K, halve a = .ok (a / 2)

/-- The generic methods. -/
instance (priority := low) genericDivision (K : Type*) [Field K] [FieldMethods K]
    [InvertsNonzero K] : DivisionMethods K where
  div := genericDiv
  halve := genericHalve
  div_ok a _ nonzero := genericDiv_ok a nonzero
  halve_ok two a := genericHalve_ok two a

/-- The methods of an implementation of `F_p`. -/
instance fpDivision (F : Type*) [Field F] [FpMethods F] : DivisionMethods F where
  div a b := .ok (zpDiv a b)
  halve a := .ok (zpHalve a)
  div_ok a _ nonzero := congrArg Except.ok (zpDiv_eq a nonzero)
  halve_ok two a := congrArg Except.ok (zpHalve_eq two a)

universe u

section Operations

variable {K ι : Type u} [Field K] [FieldMethods K] {nqr : K} [DecidableEq ι]

/-- The loop of `lucas_odd` and `lucas_even` on objects: `v0`, `v1` are the coordinates of `out`,
and `t0`, `t1` those of `temp`. -/
def lucasLoopAt (out temp : ι) (cofactor : ℕ) : ℕ → (ι → FqData nqr) → ι → FqData nqr
  | 0, o =>
      let o := setY o out ((o out).re * (o out).im)
      let o := setY o out ((o out).im - (o temp).im)
      let o := setX o out (FieldMethods.square (o out).re)
      setX o out ((o out).re - (o temp).re)
  | j + 1, o =>
      if mpzTstbit cofactor (j + 1) then
        let o := setX o out ((o out).re * (o out).im)
        let o := setX o out ((o out).re - (o temp).im)
        let o := setY o out (FieldMethods.square (o out).im)
        let o := setY o out ((o out).im - (o temp).re)
        lucasLoopAt out temp cofactor j o
      else
        let o := setY o out ((o out).re * (o out).im)
        let o := setY o out ((o out).im - (o temp).im)
        let o := setX o out (FieldMethods.square (o out).re)
        let o := setX o out ((o out).re - (o temp).re)
        lucasLoopAt out temp cofactor j o

/-- What both routines do up to the end of the loop. -/
def lucasLadderAt (out inn temp : ι) (cofactor : ℕ) (o : ι → FqData nqr) : ι → FqData nqr :=
  let o := setX o temp 2
  let o := setY o temp (FieldMethods.double (o inn).re)
  let o := setX o out (o temp).re
  let o := setY o out (o temp).im
  lucasLoopAt out temp cofactor (mpzSizeinbase2 cofactor - 1) o

variable [DivisionMethods K]

/-- `lucas_odd` on objects; `in0`, `in1` are the coordinates of `in`. -/
def lucasOddAt (out inn temp : ι) (cofactor : ℕ) (o : ι → FqData nqr) :
    Except Exit (ι → FqData nqr) := do
  let o := lucasLadderAt out inn temp cofactor o
  let o := setX o inn ((o out).re * (o temp).im)
  let o := setY o out (FieldMethods.double (o out).im)
  let o := setY o out ((o out).im - (o inn).re)
  let o := setY o temp (FieldMethods.square (o temp).im)
  let o := setY o temp ((o temp).im - (o temp).re)
  let o := setY o temp ((o temp).im - (o temp).re)
  let o := setY o out (← DivisionMethods.div (o out).im (o temp).im)
  let o := setX o out (← DivisionMethods.halve (o out).re)
  return setY o out ((o out).im * (o inn).im)

/-- `lucas_even` on objects; `temp` is the object that it makes for itself. -/
def lucasEvenAt (out inn temp : ι) (cofactor : ℕ) (o : ι → FqData nqr) :
    Except Exit (ι → FqData nqr) := do
  let o := lucasLadderAt out inn temp cofactor o
  let o := setX o out (FieldMethods.double (o out).re)
  let o := setX o inn ((o temp).im * (o out).im)
  let o := setX o inn ((o inn).re - (o out).re)
  let o := setY o temp (FieldMethods.square (o temp).im)
  let o := setY o temp ((o temp).im - (o temp).re)
  let o := setY o temp ((o temp).im - (o temp).re)
  let o := setX o out (← DivisionMethods.halve (o out).im)
  let o := setY o out (← DivisionMethods.div (o inn).re (o temp).im)
  return setY o out ((o out).im * (o inn).im)

end Operations

section Ladder

variable {K ι : Type u} [Field K] [FieldMethods K] {nqr : K} [DecidableEq ι]

/-- The loop changes the coordinates of one object only. -/
theorem lucasLoopAt_eq {out temp : ι} (distinct : temp ≠ out) (cofactor j : ℕ)
    (o : ι → FqData nqr) :
    lucasLoopAt out temp cofactor j o = Function.update o out
      ⟨(lucasLoop (o temp).re (o temp).im cofactor j (o out).re (o out).im).1,
        (lucasLoop (o temp).re (o temp).im cofactor j (o out).re (o out).im).2⟩ := by
  induction j generalizing o with
  | zero =>
    simp only [lucasLoopAt, lucasLoop, setX, setY, Function.update_self, Function.update_idem,
      Function.update_of_ne distinct]
  | succ j ih =>
    rw [lucasLoopAt, lucasLoop]
    cases bit : mpzTstbit cofactor (j + 1) with
    | true =>
      rw [if_pos rfl, if_pos rfl, ih]
      simp only [setX, setY, Function.update_self, Function.update_idem,
        Function.update_of_ne distinct]
    | false =>
      rw [if_neg Bool.false_ne_true, if_neg Bool.false_ne_true, ih]
      simp only [setX, setY, Function.update_self, Function.update_idem,
        Function.update_of_ne distinct]

variable {out inn temp : ι} (apart' : temp ≠ out) (apart'' : temp ≠ inn) {o : ι → FqData nqr}
  (unitary : (o inn).re * (o inn).re - (o inn).im * (o inn).im * nqr = 1)

include apart'' apart' unitary

/-- At the end of the ladder the result holds two neighbouring traces, and the third object the
constants. -/
theorem lucasLadderAt_eq (cofactor : ℕ) : lucasLadderAt out inn temp cofactor o =
    Function.update (Function.update o temp ⟨2, (o inn).re + (o inn).re⟩) out
      ⟨2 * (o inn ^ (2 * (cofactor >>> 1))).re, 2 * (o inn ^ (2 * (cofactor >>> 1) + 1)).re⟩ := by
  obtain ⟨low, high⟩ := lucasLoop_unitary unitary cofactor
  have start : lucasLadderAt out inn temp cofactor o =
      lucasLoopAt out temp cofactor (mpzSizeinbase2 cofactor - 1)
        (Function.update (Function.update o temp ⟨2, (o inn).re + (o inn).re⟩) out
          ⟨2, (o inn).re + (o inn).re⟩) := by
    simp only [lucasLadderAt, setX, setY, Function.update_self, Function.update_idem,
      Function.update_of_ne apart', Function.update_of_ne apart''.symm, FieldMethods.double_eq]
  rw [start, lucasLoopAt_eq apart']
  simp only [Function.update_self, Function.update_idem, Function.update_of_ne apart', low, high]
  rfl

variable [DivisionMethods K] (apart : inn ≠ out) (two : (2 : K) ≠ 0) (residue : nqr ≠ 0)
  (imaginary : (o inn).im ≠ 0)

include apart two residue imaginary

/-- `lucas_odd` leaves an even power, and changes its three objects only. -/
theorem lucasOddAt_ok {cofactor : ℕ} (even : Even cofactor) :
    ∃ o', lucasOddAt out inn temp cofactor o = .ok o' ∧ o' out = o inn ^ cofactor ∧
      ∀ i, i ≠ out → i ≠ inn → i ≠ temp → o' i = o i := by
  have exponent : 2 * (cofactor >>> 1) = cofactor := by
    rw [Nat.shiftRight_one]
    exact Nat.two_mul_div_two_of_even even
  have numerator := lucas_next (o inn) cofactor
  have denominator := lucas_discriminant unitary
  have nonzero := discriminant_ne_zero two residue imaginary
  have quotient (a : K) := DivisionMethods.div_ok a nonzero
  have half := DivisionMethods.halve_ok two
  have ladder := lucasLadderAt_eq apart' apart'' unitary cofactor
  rw [exponent] at ladder
  simp only [lucasOddAt, ladder, setX, setY, Function.update_self, Function.update_of_ne apart,
    Function.update_of_ne apart.symm, Function.update_of_ne apart',
    Function.update_of_ne apart'.symm, Function.update_of_ne apart'',
    Function.update_of_ne apart''.symm, FieldMethods.double_eq, FieldMethods.square_eq,
    denominator, quotient, half, bind, Except.bind, pure, Except.pure]
  refine ⟨_, rfl, ?_, ?_⟩
  · rw [Function.update_self]
    exact coordinates_of_quotient two nonzero numerator
  · intro i other other' other''
    simp only [Function.update_of_ne other, Function.update_of_ne other',
      Function.update_of_ne other'']

/-- `lucas_even` leaves an odd power. -/
theorem lucasEvenAt_ok {cofactor : ℕ} (odd : Odd cofactor) :
    ∃ o', lucasEvenAt out inn temp cofactor o = .ok o' ∧ o' out = o inn ^ cofactor ∧
      ∀ i, i ≠ out → i ≠ inn → i ≠ temp → o' i = o i := by
  have exponent : 2 * (cofactor >>> 1) + 1 = cofactor := (Pbc.Number.odd_eq_append odd).symm
  have numerator := lucas_previous unitary (2 * (cofactor >>> 1))
  have denominator := lucas_discriminant unitary
  have nonzero := discriminant_ne_zero two residue imaginary
  have quotient (a : K) := DivisionMethods.div_ok a nonzero
  have half := DivisionMethods.halve_ok two
  have ladder := lucasLadderAt_eq apart' apart'' unitary cofactor
  rw [exponent] at ladder numerator
  simp only [lucasEvenAt, ladder, setX, setY, Function.update_self, Function.update_of_ne apart,
    Function.update_of_ne apart.symm, Function.update_of_ne apart',
    Function.update_of_ne apart'.symm, Function.update_of_ne apart'',
    Function.update_of_ne apart''.symm, FieldMethods.double_eq, FieldMethods.square_eq,
    denominator, quotient, half, bind, Except.bind, pure, Except.pure]
  refine ⟨_, rfl, ?_, ?_⟩
  · rw [Function.update_self]
    exact coordinates_of_quotient two nonzero numerator
  · intro i other other' other''
    simp only [Function.update_of_ne other, Function.update_of_ne other',
      Function.update_of_ne other'']

end Ladder

/-- On an element of norm one that has a second coordinate, `lucas_even` leaves every odd power
and `lucas_odd` every even one; no object besides theirs changes. -/
theorem lucasAt_pow {K ι : Type u} [Field K] [FieldMethods K] [DivisionMethods K] [DecidableEq ι]
    (two : (2 : K) ≠ 0) {d : K} (nonresidue : ¬IsSquare d) {out inn temp : ι}
    (apart : inn ≠ out) (apart' : temp ≠ out) (apart'' : temp ≠ inn) {o : ι → FqData d}
    (unitary : (o inn).re ^ 2 - d * (o inn).im ^ 2 = 1) (imaginary : (o inn).im ≠ 0) :
    (∀ k, Odd k → ∃ o', lucasEvenAt out inn temp k o = .ok o' ∧ o' out = o inn ^ k ∧
      ∀ i, i ≠ out → i ≠ inn → i ≠ temp → o' i = o i) ∧
    ∀ k, Even k → ∃ o', lucasOddAt out inn temp k o = .ok o' ∧ o' out = o inn ^ k ∧
      ∀ i, i ≠ out → i ≠ inn → i ≠ temp → o' i = o i := by
  have residue : d ≠ 0 := by
    intro zero
    exact nonresidue (zero ▸ IsSquare.zero)
  have norm : (o inn).re * (o inn).re - (o inn).im * (o inn).im * d = 1 := by
    linear_combination unitary
  constructor
  · intro k odd
    exact lucasEvenAt_ok apart' apart'' norm apart two residue imaginary odd
  · intro k even
    exact lucasOddAt_ok apart' apart'' norm apart two residue imaginary even

section Seven

private local instance primeSevenLucas : Fact (Nat.Prime 7) := ⟨by decide⟩

/-- The element `2 + 2i` over `F_7` has norm one. -/
theorem lucasAt_pow_seven :
    (∀ k, Odd k → ∃ o', lucasEvenAt 0 1 2 k (fun _ : Fin 3 => (⟨2, 2⟩ : FiData (ZMod 7))) = .ok o' ∧
      o' 0 = ⟨2, 2⟩ ^ k ∧ ∀ i, i ≠ 0 → i ≠ 1 → i ≠ 2 → o' i = ⟨2, 2⟩) ∧
    ∀ k, Even k → ∃ o', lucasOddAt 0 1 2 k (fun _ : Fin 3 => (⟨2, 2⟩ : FiData (ZMod 7))) = .ok o' ∧
      o' 0 = ⟨2, 2⟩ ^ k ∧ ∀ i, i ≠ 0 → i ≠ 1 → i ≠ 2 → o' i = ⟨2, 2⟩ :=
  lucasAt_pow (by decide) (by decide) (by decide) (by decide) (by decide) (by decide) (by decide)

end Seven

end Pbc.Ecc
