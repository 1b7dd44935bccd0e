import Mathlib.NumberTheory.LegendreSymbol.QuadraticChar.Basic
import Pbc.Arith.QuadraticStore

/-!
# Square roots in quadratic extensions

The square test of a quadratic extension asks the base about the norm. The root is found from a root
of the norm, in the coordinate whose square the base says exists, and the other coordinate by a
division. For an element of the base that division is by zero, or the test is passed by zero,
unless the roots of the base happen to fit.
-/

open Pbc.Algebra

namespace Pbc.Arith

section Operations

variable {K : Type} [CommRing K] [FieldMethods K] {nqr : K} (isSqr : K → Bool)

/-- `fq_is_sqr`, with the test of the base. -/
def fqIsSqr (e : FqData nqr) : Bool :=
  let e0 := FieldMethods.square e.re
  let e1 := FieldMethods.square e.im
  let e1 := e1 * nqr
  let e0 := e0 - e1
  isSqr e0

/-- `fi_is_sqr`, with the test of the base. -/
def fiIsSqr (e : FiData K) : Bool :=
  let e0 := FieldMethods.square e.re
  let e1 := FieldMethods.square e.im
  let e0 := e0 + e1
  isSqr e0

end Operations

section Roots

variable {F ι : Type} [Field F] [FpMethods F] {nqr : F} [DecidableEq ι] (isSqr : F → Bool)
  (sqrt : ℕ → F → F)

/-- `fq_sqrt` on objects. The calls of `element_sqrt` in the base are numbered, since each may
return either root. -/
def fqSqrtAt (n e : ι) (objects : ι → FqData nqr) : ι → FqData nqr :=
  let e0 := (objects e).re * (objects e).re
  let e1 := (objects e).im * (objects e).im
  let e1 := e1 * nqr
  let e0 := e0 - e1
  let e0 := sqrt 0 e0
  let e1 := (objects e).re + e0
  let e2 := 2
  let e2 := zpInvert e2
  let e1 := e1 * e2
  let e1 := if !isSqr e1 then e1 - e0 else e1
  let e0 := sqrt 1 e1
  let e1 := e0 + e0
  let e1 := zpInvert e1
  let objects := setY objects n ((objects e).im * e1)
  setX objects n e0

/-- `fi_sqrt` on objects. -/
def fiSqrtAt (n e : ι) (objects : ι → FiData F) : ι → FiData F :=
  let e0 := (objects e).re * (objects e).re
  let e1 := (objects e).im * (objects e).im
  let e0 := e0 + e1
  let e0 := sqrt 0 e0
  let e1 := (objects e).re + e0
  let e2 := 2
  let e2 := zpInvert e2
  let e1 := e1 * e2
  let e1 := if !isSqr e1 then e1 - e0 else e1
  let e0 := sqrt 1 e1
  let e1 := e0 + e0
  let e1 := zpInvert e1
  let objects := setY objects n ((objects e).im * e1)
  setX objects n e0

/-- The `fi` routine is the one for the nonresidue `-1`. -/
theorem fiSqrtAt_eq (n e : ι) (objects : ι → FiData F) :
    fiSqrtAt isSqr sqrt n e objects = @fqSqrtAt F ι _ _ (-1) _ isSqr sqrt n e objects := by
  have norm : (objects e).re * (objects e).re + (objects e).im * (objects e).im =
      (objects e).re * (objects e).re - (objects e).im * (objects e).im * -1 := by ring
  rw [fiSqrtAt, fqSqrtAt, norm]

end Roots

section Tests

variable {K : Type} [Field K] [Fintype K] [FieldMethods K] {isSqr : K → Bool}

/-- The square tests of quadratic extensions of a finite field are exact if that of the base is. -/
theorem quadraticIsSqr_exact (two : (2 : K) ≠ 0) (exact' : ∀ a, isSqr a = true ↔ IsSquare a) :
    (∀ {nqr : K}, ¬IsSquare nqr → ∀ e : FqData nqr, fqIsSqr isSqr e = true ↔ IsSquare e) ∧
    (¬IsSquare (-1 : K) → ∀ e : FiData K, fiIsSqr isSqr e = true ↔ IsSquare e) := by
  constructor
  · intro nqr nonresidue e
    rw [isSquare_iff_norm two nonresidue, ← exact']
    simp only [fqIsSqr, FieldMethods.square_eq]
  · intro nonresidue e
    have norm : e.re * e.re - e.im * e.im * -1 = e.re * e.re + e.im * e.im := by ring
    rw [isSquare_iff_norm two nonresidue, norm, ← exact']
    simp only [fiIsSqr, FieldMethods.square_eq]

theorem quadraticIsSqr_exact_seven : ∃ _ : Fact (Nat.Prime 7),
    (fqIsSqr (fun a : ZMod 7 => decide (IsSquare a)) (⟨3, 0⟩ : FqData (3 : ZMod 7)) = true ↔
      IsSquare (⟨3, 0⟩ : FqData (3 : ZMod 7))) ∧
    (fiIsSqr (fun a : ZMod 7 => decide (IsSquare a)) (⟨1, 2⟩ : FiData (ZMod 7)) = true ↔
      IsSquare (⟨1, 2⟩ : FiData (ZMod 7))) := by
  have three : ¬IsSquare (3 : ZMod 7) := by decide
  have minus : ¬IsSquare (-1 : ZMod 7) := by decide
  have two : (2 : ZMod 7) ≠ 0 := by decide
  have prime := Fact.mk Nat.prime_seven
  have tests := quadraticIsSqr_exact (K := ZMod 7) two fun a => decide_eq_true_iff
  exact ⟨prime, tests.1 three ⟨3, 0⟩, tests.2 minus ⟨1, 2⟩⟩

end Tests

section Values

variable {F ι : Type} [Field F] [FpMethods F] {nqr : F} [DecidableEq ι] {isSqr : F → Bool}
  {sqrt : ℕ → F → F} {objects : ι → FqData nqr} {n e : ι}

/-- The roots that the base returns. -/
def RootsSquares (sqrt : ℕ → F → F) : Prop := ∀ k a, IsSquare a → sqrt k a * sqrt k a = a

/-- The result is written as a whole. -/
theorem fqSqrtAt_eq (two : (2 : F) ≠ 0) {w h : F}
    (norm : sqrt 0 ((objects e).re * (objects e).re - (objects e).im * (objects e).im * nqr) = w)
    (half : (if !isSqr (((objects e).re + w) / 2) then ((objects e).re - w) / 2
      else ((objects e).re + w) / 2) = h) :
    fqSqrtAt isSqr sqrt n e objects = Function.update objects n
      ⟨sqrt 1 h, (objects e).im * zpInvert (sqrt 1 h + sqrt 1 h)⟩ := by
  have other : ((objects e).re + w) / 2 - w = ((objects e).re - w) / 2 := by
    field_simp
    ring
  simp only [fqSqrtAt, norm, zpInvert_eq two, ← div_eq_mul_inv, other, half, setX_setY]

/-- The pair that a root of a candidate gives. -/
private theorem candidate_sq (two : (2 : F) ≠ 0) (nonresidue : ¬IsSquare nqr) {x y w a : F}
    (outside : y ≠ 0) (norm : w * w = x * x - y * y * nqr) (half : a * a = (x + w) / 2) :
    (⟨a, y * zpInvert (a + a)⟩ * ⟨a, y * zpInvert (a + a)⟩ : FqData nqr) = ⟨x, y⟩ := by
  have double : a + a ≠ 0 := by
    intro zero
    rw [← two_mul] at zero
    have none := (mul_eq_zero.mp zero).resolve_left two
    rw [none, zero_mul, eq_comm] at half
    exact half_ne_zero nonresidue two outside norm half
  rw [zpInvert_eq double]
  exact sq_of_half two nonresidue outside norm half

/-- An element outside the base gets a root. -/
theorem fqSqrtAt_outside [Fintype F] (two : (2 : F) ≠ 0) (nonresidue : ¬IsSquare nqr)
    (exact' : ∀ a, isSqr a = true ↔ IsSquare a) (roots : RootsSquares sqrt)
    (square : IsSquare (objects e)) (outside : (objects e).im ≠ 0) :
    ∃ r, fqSqrtAt isSqr sqrt n e objects = Function.update objects n r ∧ r * r = objects e := by
  have norm := roots 0 _ ((isSquare_iff_norm two nonresidue _).mp square)
  set w := sqrt 0 ((objects e).re * (objects e).re - (objects e).im * (objects e).im * nqr) with chosen
  refine ⟨_, fqSqrtAt_eq two chosen.symm rfl, ?_⟩
  by_cases first : IsSquare (((objects e).re + w) / 2)
  · have passes : ¬(!isSqr (((objects e).re + w) / 2)) = true := by
      rw [(exact' _).mpr first]
      exact Bool.false_ne_true
    rw [if_neg passes]
    exact candidate_sq two nonresidue outside norm (roots 1 _ first)
  · have fails : (!isSqr (((objects e).re + w) / 2)) = true := by
      rw [Bool.not_eq_true', Bool.eq_false_iff]
      exact mt (exact' _).mp first
    have norm' : -w * -w =
        (objects e).re * (objects e).re - (objects e).im * (objects e).im * nqr := by
      rw [neg_mul_neg, norm]
    have half := roots 1 _ (isSquare_half two nonresidue outside norm first)
    rw [if_pos fails]
    rw [sub_eq_add_neg] at half ⊢
    exact candidate_sq two nonresidue outside norm' half

/-- An element of the base gets the root zero when the base returns the other root of its square. -/
theorem fqSqrtAt_base (two : (2 : F) ≠ 0) (exact' : ∀ a, isSqr a = true ↔ IsSquare a)
    (roots : RootsSquares sqrt) (inside : (objects e).im = 0)
    (other : sqrt 0 ((objects e).re * (objects e).re) = -(objects e).re) :
    fqSqrtAt isSqr sqrt n e objects = Function.update objects n 0 := by
  have zero : sqrt 1 0 = 0 := mul_self_eq_zero.mp (roots 1 0 IsSquare.zero)
  have norm : sqrt 0 ((objects e).re * (objects e).re - (objects e).im * (objects e).im * nqr) =
      -(objects e).re := by
    rw [inside, zero_mul, zero_mul, sub_zero, other]
  have candidate : ((objects e).re + -(objects e).re) / 2 = 0 := by
    rw [add_neg_cancel, zero_div]
  have passes : ¬(!isSqr (0 : F)) = true := by
    rw [(exact' 0).mpr IsSquare.zero]
    exact Bool.false_ne_true
  have half : (if !isSqr (((objects e).re + -(objects e).re) / 2) then
      ((objects e).re - -(objects e).re) / 2 else ((objects e).re + -(objects e).re) / 2) = 0 := by
    rw [candidate, if_neg passes]
  rw [fqSqrtAt_eq two norm half, zero, inside, zero_mul]
  rfl

omit [FpMethods F] in
open Classical in
/-- Roots with a chosen root of one square in the first call. -/
private theorem exists_roots (x : F) : ∃ sqrt : ℕ → F → F, RootsSquares sqrt ∧ sqrt 0 (x * x) = -x := by
  have chosen : ∀ a : F, ∃ r, IsSquare a → r * r = a := by
    intro a
    by_cases square : IsSquare a
    · obtain ⟨r, root⟩ := square
      exact ⟨r, fun _ => root.symm⟩
    · exact ⟨0, fun isSquare => absurd isSquare square⟩
  choose root root_sq using chosen
  refine ⟨fun k a => if k = 0 ∧ a = x * x then -x else root a, ?_, if_pos ⟨rfl, rfl⟩⟩
  intro k a square
  dsimp only
  by_cases first : k = 0 ∧ a = x * x
  · rw [if_pos first, neg_mul_neg, first.2]
  · rw [if_neg first]
    exact root_sq a square

/-- Whichever roots the base returns, a square gets a root exactly when it is zero or outside the
base. -/
theorem fqSqrtAt_sq_iff [Fintype F] (two : (2 : F) ≠ 0) (exact' : ∀ a, isSqr a = true ↔ IsSquare a)
    (nonresidue : ¬IsSquare nqr) (square : IsSquare (objects e)) :
    (∀ sqrt, RootsSquares sqrt → ∃ r, fqSqrtAt isSqr sqrt n e objects = Function.update objects n r ∧
      r * r = objects e) ↔ (objects e).im ≠ 0 ∨ objects e = 0 := by
  constructor
  · intro all
    by_contra wrong
    obtain ⟨inside, nonzero⟩ := not_or.mp wrong
    have inside := not_not.mp inside
    obtain ⟨sqrt, roots, other⟩ := exists_roots (objects e).re
    obtain ⟨r, run, root⟩ := all sqrt roots
    rw [fqSqrtAt_base two exact' roots inside other] at run
    have value := congrFun run n
    rw [Function.update_self, Function.update_self] at value
    rw [← value, mul_zero] at root
    exact nonzero root.symm
  · rintro (outside | zero) sqrt roots
    · exact fqSqrtAt_outside two nonresidue exact' roots square outside
    · have base : (objects e).re = 0 := by rw [zero, QuadraticAlgebra.re_zero]
      have root : sqrt 0 ((objects e).re * (objects e).re) = -(objects e).re := by
        rw [base, mul_zero, neg_zero]
        exact mul_self_eq_zero.mp (roots 0 0 IsSquare.zero)
      refine ⟨0, fqSqrtAt_base two exact' roots (by rw [zero, QuadraticAlgebra.im_zero]) root, ?_⟩
      rw [zero, mul_zero]

end Values

section Extensions

variable {F ι : Type} [Field F] [Fintype F] [FpMethods F] [DecidableEq ι] {isSqr : F → Bool}

/-- Both routines, over a field of odd order, for `fi` one less than a multiple of four. -/
theorem quadraticSqrt_exact_iff (two : (2 : F) ≠ 0) (exact' : ∀ a, isSqr a = true ↔ IsSquare a)
    (n e : ι) :
    (∀ {nqr : F}, ¬IsSquare nqr → ∀ objects : ι → FqData nqr, IsSquare (objects e) →
      ((∀ sqrt, RootsSquares sqrt →
          ∃ r, fqSqrtAt isSqr sqrt n e objects = Function.update objects n r ∧ r * r = objects e) ↔
        (objects e).im ≠ 0 ∨ objects e = 0)) ∧
    (Fintype.card F % 4 = 3 → ∀ objects : ι → FiData F, IsSquare (objects e) →
      ((∀ sqrt, RootsSquares sqrt →
          ∃ r, fiSqrtAt isSqr sqrt n e objects = Function.update objects n r ∧ r * r = objects e) ↔
        (objects e).im ≠ 0 ∨ objects e = 0)) := by
  constructor
  · intro nqr nonresidue objects square
    exact fqSqrtAt_sq_iff two exact' nonresidue square
  · intro residue objects square
    have nonresidue : ¬IsSquare (-1 : F) := by
      rw [FiniteField.isSquare_neg_one_iff]
      exact not_not.mpr residue
    simp only [fiSqrtAt_eq]
    exact fqSqrtAt_sq_iff two exact' nonresidue square

end Extensions

section Small

/-- The square test modulo five. -/
private def isSqrFive (a : ZMod 5) : Bool := decide (IsSquare a)

private theorem isSqrFive_exact (a : ZMod 5) : isSqrFive a = true ↔ IsSquare a := decide_eq_true_iff

theorem quadraticSqrt_exact_five :
    (∀ sqrt : ℕ → ZMod 5 → ZMod 5, RootsSquares sqrt →
      ∃ r, fqSqrtAt isSqrFive sqrt () () (fun _ => (⟨3, 2⟩ : FqData (2 : ZMod 5))) =
        Function.update (fun _ => ⟨3, 2⟩) () r ∧ r * r = ⟨3, 2⟩) ↔
      (⟨3, 2⟩ : FqData (2 : ZMod 5)).im ≠ 0 ∨ (⟨3, 2⟩ : FqData (2 : ZMod 5)) = 0 :=
  (quadraticSqrt_exact_iff (by decide) isSqrFive_exact () ()).1 (by decide) _ ⟨⟨1, 1⟩, by decide⟩

/-- Modulo five with the nonresidue two, the root of four is zero if the base takes one for the root
of sixteen. -/
theorem quadraticSqrt_base : ∃ sqrt : ℕ → ZMod 5 → ZMod 5, RootsSquares sqrt ∧
    ¬IsSquare (2 : ZMod 5) ∧ IsSquare (⟨4, 0⟩ : FqData (2 : ZMod 5)) ∧
      fqSqrtAt isSqrFive sqrt () () (fun _ => (⟨4, 0⟩ : FqData (2 : ZMod 5))) () = 0 ∧
        (0 * 0 : FqData (2 : ZMod 5)) ≠ ⟨4, 0⟩ := by
  have roots : ∀ a : ZMod 5, IsSquare a →
      (if a = 4 then (2 : ZMod 5) else a) * (if a = 4 then 2 else a) = a := by
    decide
  refine ⟨fun _ a => if a = 4 then 2 else a, fun _ => roots, by decide, ⟨⟨2, 0⟩, by decide⟩, ?_,
    by decide⟩
  decide

end Small

end Pbc.Arith
