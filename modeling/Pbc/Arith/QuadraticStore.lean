import Pbc.Algebra.QuadraticRoots
import Pbc.Arith.FieldQuadratic

/-!
# Quadratic extensions on objects

The routines of a quadratic extension on the objects of a program. Each coordinate of the result is
written by a call of its own, and the objects may be one, so what is read later is read from what
is there by then. The `fi` routines work over any base where `-1` is a nonresidue.
-/

open Pbc.Algebra

namespace Pbc.Arith

section Objects

variable {K ι : Type*} {u v : K} [DecidableEq ι]

/-- An assignment to the coordinate `x` of an object. -/
def setX (objects : ι → QuadraticAlgebra K u v) (n : ι) (x : K) : ι → QuadraticAlgebra K u v :=
  Function.update objects n ⟨x, (objects n).im⟩

/-- An assignment to the coordinate `y` of an object. -/
def setY (objects : ι → QuadraticAlgebra K u v) (n : ι) (y : K) : ι → QuadraticAlgebra K u v :=
  Function.update objects n ⟨(objects n).re, y⟩

variable (objects : ι → QuadraticAlgebra K u v) (n i : ι) (x y : K)

@[simp] theorem im_setX : (setX objects n x i).im = (objects i).im := by
  by_cases same : i = n
  · rw [setX, same, Function.update_self]
  · rw [setX, Function.update_of_ne same]

@[simp] theorem re_setX_self : (setX objects n x n).re = x := by
  rw [setX, Function.update_self]

@[simp] theorem setX_setX (x' : K) : setX (setX objects n x) n x' = setX objects n x' := by
  rw [setX, im_setX, setX, Function.update_idem, setX]

/-- Both coordinates of an object. -/
@[simp] theorem setY_setX : setY (setX objects n x) n y = Function.update objects n ⟨x, y⟩ := by
  rw [setY, re_setX_self, setX, Function.update_idem]

@[simp] theorem setX_setY : setX (setY objects n y) n x = Function.update objects n ⟨x, y⟩ := by
  rw [setX, setY, Function.update_self, Function.update_idem]

end Objects

section Operations

variable {K ι : Type} [CommRing K] [FieldMethods K] {nqr : K} [DecidableEq ι]

/-- `fq_mul` on objects. -/
def fqMulAt (n a b : ι) (objects : ι → FqData nqr) : ι → FqData nqr :=
  let e0 := (objects a).re + (objects a).im
  let e1 := (objects b).re + (objects b).im
  let e2 := e0 * e1
  let e0 := (objects a).re * (objects b).re
  let e1 := (objects a).im * (objects b).im
  let objects := setX objects n (e1 * nqr)
  let objects := setX objects n ((objects n).re + e0)
  let e2 := e2 - e0
  setY objects n (e2 - e1)

/-- `fq_square` on objects. -/
def fqSquareAt (n a : ι) (objects : ι → FqData nqr) : ι → FqData nqr :=
  let e0 := FieldMethods.square (objects a).re
  let e1 := FieldMethods.square (objects a).im
  let e1 := e1 * nqr
  let e0 := e0 + e1
  let e1 := (objects a).re * (objects a).im
  let e1 := FieldMethods.double e1
  let objects := setX objects n e0
  setY objects n e1

/-- `fq_invert` on objects. -/
def fqInvertAt (n a : ι) (objects : ι → FqData nqr) : Except Exit (ι → FqData nqr) := do
  let e0 := FieldMethods.square (objects a).re
  let e1 := FieldMethods.square (objects a).im
  let e1 := e1 * nqr
  let e0 := e0 - e1
  let e0 ← FieldMethods.invert e0
  let objects := setX objects n ((objects a).re * e0)
  let e0 := -e0
  return setY objects n ((objects a).im * e0)

/-- `fi_mul` on objects. -/
def fiMulAt (n a b : ι) (objects : ι → FiData K) : ι → FiData K :=
  let e0 := (objects a).re + (objects a).im
  let e1 := (objects b).re + (objects b).im
  let e2 := e0 * e1
  let e0 := (objects a).re * (objects b).re
  let e2 := e2 - e0
  let e1 := (objects a).im * (objects b).im
  let objects := setX objects n (e0 - e1)
  setY objects n (e2 - e1)

/-- `fi_square` on objects. -/
def fiSquareAt (n a : ι) (objects : ι → FiData K) : ι → FiData K :=
  let e0 := (objects a).re + (objects a).im
  let e1 := (objects a).re - (objects a).im
  let e0 := e0 * e1
  let e1 := (objects a).re * (objects a).im
  let e1 := e1 + e1
  let objects := setX objects n e0
  setY objects n e1

/-- `fi_invert` on objects. -/
def fiInvertAt (n a : ι) (objects : ι → FiData K) : Except Exit (ι → FiData K) := do
  let e0 := FieldMethods.square (objects a).re
  let e1 := FieldMethods.square (objects a).im
  let e0 := e0 + e1
  let e0 ← FieldMethods.invert e0
  let objects := setX objects n ((objects a).re * e0)
  let e0 := -e0
  return setY objects n ((objects a).im * e0)

end Operations

section Values

variable {K ι : Type} [CommRing K] [FieldMethods K] {nqr : K} [DecidableEq ι] (n a b : ι)

omit [FieldMethods K] in
theorem fqMulAt_eq (objects : ι → FqData nqr) :
    fqMulAt n a b objects = Function.update objects n (objects a * objects b) := by
  have product : fqMulAt n a b objects =
      Function.update objects n (fqMul (objects a) (objects b)) := by
    simp only [fqMulAt, re_setX_self, setX_setX, setY_setX, fqMul]
  rw [product, fqMul_eq]

theorem fqSquareAt_eq (objects : ι → FqData nqr) :
    fqSquareAt n a objects = Function.update objects n (objects a * objects a) := by
  have square : fqSquareAt n a objects = Function.update objects n (fqSquare (objects a)) := by
    simp only [fqSquareAt, setY_setX, fqSquare]
  rw [square, fqSquare_eq]

/-- Where the base inverts the norm, the result is the inverse. -/
theorem fqInvertAt_ok {objects : ι → FqData nqr} {w : K}
    (inverted : FieldMethods.invert
      ((objects a).re * (objects a).re - (objects a).im * (objects a).im * nqr) = .ok w)
    (inverse : ((objects a).re * (objects a).re - (objects a).im * (objects a).im * nqr) * w = 1) :
    ∃ c, fqInvertAt n a objects = .ok (Function.update objects n c) ∧ objects a * c = 1 := by
  obtain ⟨c, run, unit⟩ := fqInvert_ok inverted inverse
  refine ⟨c, ?_, unit⟩
  simp only [fqInvert, FieldMethods.square_eq, inverted] at run
  obtain rfl := Except.ok.inj run
  simp only [fqInvertAt, FieldMethods.square_eq, inverted]
  change Except.ok (setY (setX objects n _) n _) = _
  rw [im_setX, setY_setX]

omit [FieldMethods K] in
/-- The `fi` routines agree with those for the nonresidue `-1`. -/
theorem fiMulAt_eq (objects : ι → FiData K) :
    fiMulAt n a b objects = Function.update objects n (objects a * objects b) := by
  rw [fiMulAt, setY_setX]
  congr 1
  ext
  · rw [QuadraticAlgebra.re_mul]
    ring
  · rw [QuadraticAlgebra.im_mul]
    ring

omit [FieldMethods K] in
theorem fiSquareAt_eq (objects : ι → FiData K) :
    fiSquareAt n a objects = Function.update objects n (objects a * objects a) := by
  rw [fiSquareAt, setY_setX]
  congr 1
  ext
  · rw [QuadraticAlgebra.re_mul]
    ring
  · rw [QuadraticAlgebra.im_mul]
    ring

theorem fiInvertAt_eq (objects : ι → FiData K) :
    fiInvertAt n a objects = @fqInvertAt K ι _ _ (-1) _ n a objects := by
  have norm : (objects a).re * (objects a).re + (objects a).im * (objects a).im =
      (objects a).re * (objects a).re - (objects a).im * (objects a).im * -1 := by ring
  simp only [fiInvertAt, fqInvertAt, FieldMethods.square_eq, norm]

end Values

section Field

variable {K ι : Type} [Field K] [FieldMethods K] [InvertsNonzero K] [DecidableEq ι]

/-- Over a field and a nonresidue every nonzero element is inverted. -/
theorem fqInvertAt_inverse {nqr : K} (nonresidue : ¬IsSquare nqr) (n a : ι)
    {objects : ι → FqData nqr} (nonzero : objects a ≠ 0) :
    ∃ c, fqInvertAt n a objects = .ok (Function.update objects n c) ∧ objects a * c = 1 := by
  have : Fact (∀ r : K, r ^ 2 ≠ nqr + 0 * r) := ⟨fun r same => nonresidue
    ⟨r, by rw [← pow_two, same, zero_mul, add_zero]⟩⟩
  have unit := norm_ne_zero nonzero
  exact fqInvertAt_ok n a (InvertsNonzero.invert_ok unit) (mul_inv_cancel₀ unit)

/-- Products, squares and inverses in a quadratic extension, whatever objects are one. The `fi`
routines are those for the nonresidue `-1`. -/
theorem quadraticAt_exact (n a b : ι) :
    (∀ {nqr : K}, ¬IsSquare nqr → ∀ objects : ι → FqData nqr,
      fqMulAt n a b objects = Function.update objects n (objects a * objects b) ∧
      fqSquareAt n a objects = Function.update objects n (objects a * objects a) ∧
      (objects a ≠ 0 → ∃ c, fqInvertAt n a objects = .ok (Function.update objects n c) ∧
        objects a * c = 1)) ∧
    (¬IsSquare (-1 : K) → ∀ objects : ι → FiData K,
      fiMulAt n a b objects = Function.update objects n (objects a * objects b) ∧
      fiSquareAt n a objects = Function.update objects n (objects a * objects a) ∧
      (objects a ≠ 0 → ∃ c, fiInvertAt n a objects = .ok (Function.update objects n c) ∧
        objects a * c = 1)) := by
  constructor
  · intro nqr nonresidue objects
    exact ⟨fqMulAt_eq n a b objects, fqSquareAt_eq n a objects,
      fun nonzero => fqInvertAt_inverse nonresidue n a nonzero⟩
  · intro nonresidue objects
    refine ⟨fiMulAt_eq n a b objects, fiSquareAt_eq n a objects, fun nonzero => ?_⟩
    rw [fiInvertAt_eq]
    exact fqInvertAt_inverse nonresidue n a nonzero

/-- An inverse that overwrites its operand, with both routines. -/
theorem quadraticAt_exact_seven : ∃ _ : Fact (Nat.Prime 7),
    (∃ c : FqData (3 : ZMod 7), fqInvertAt () () (fun _ => ⟨1, 2⟩) = .ok (Function.update (fun _ => ⟨1, 2⟩) () c) ∧
      ⟨1, 2⟩ * c = 1) ∧
    ∃ c : FiData (ZMod 7), fiInvertAt () () (fun _ => ⟨1, 2⟩) = .ok (Function.update (fun _ => ⟨1, 2⟩) () c) ∧
      ⟨1, 2⟩ * c = 1 := by
  have three : ¬IsSquare (3 : ZMod 7) := by decide
  have minus : ¬IsSquare (-1 : ZMod 7) := by decide
  have prime := Fact.mk Nat.prime_seven
  have apart {d : ZMod 7} : (⟨1, 2⟩ : QuadraticAlgebra (ZMod 7) d 0) ≠ 0 := by
    intro zero
    have one : (1 : ZMod 7) = 0 := congrArg QuadraticAlgebra.re zero
    exact one_ne_zero one
  have all := quadraticAt_exact (K := ZMod 7) () () ()
  exact ⟨prime, (all.1 three fun _ => ⟨1, 2⟩).2.2 apart, (all.2 minus fun _ => ⟨1, 2⟩).2.2 apart⟩

end Field

end Pbc.Arith
