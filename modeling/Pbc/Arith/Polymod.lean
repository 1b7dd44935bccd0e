import Mathlib.Data.Fin.VecNotation
import Mathlib.Data.Fintype.EquivFin
import Mathlib.Tactic.LinearCombination
import Pbc.Algebra.MonicQuotient
import Pbc.Arith.Field

/-!
# Polynomial extensions

An element of `R[x]` modulo a monic polynomial is the array of its `n`
coefficients. The products reduce the powers `x^n, ..., x^(2n-2)` through the
table of `compute_x_powers`. Degrees three and six have routines of their own;
every routine computes the product of the quotient ring.
-/

open Pbc.Algebra

namespace Pbc.Arith

/-- An element of the extension by the monic polynomial with the lower
coefficients `poly`. -/
@[ext] structure Polymod {F : Type*} {n : ℕ} (poly : Fin n → F) where
  coeff : Fin n → F

namespace Polymod

variable {F : Type*} {n : ℕ} {poly : Fin n → F}

instance [DecidableEq F] : DecidableEq (Polymod poly) := fun e f =>
  decidable_of_iff (e.coeff = f.coeff) Polymod.ext_iff.symm

/-- The arrays and the elements they represent. -/
@[simps] def equivCoeff (poly : Fin n → F) : Polymod poly ≃ (Fin n → F) where
  toFun := coeff
  invFun := mk
  left_inv _ := rfl
  right_inv _ := rfl

instance [Fintype F] : Fintype (Polymod poly) := Fintype.ofEquiv _ (equivCoeff poly).symm

theorem card_polymod [Fintype F] : Fintype.card (Polymod poly) = Fintype.card F ^ n := by
  rw [Fintype.card_congr (equivCoeff poly), Fintype.card_fun, Fintype.card_fin]

end Polymod

section Operations

variable {F : Type*} [CommRing F] {n : ℕ} {poly : Fin n → F}

/-- `polymod_set_si`; also `polymod_set0` and `polymod_set1`. -/
def polymodSetSi (poly : Fin n → F) (x : ℤ) : Polymod poly :=
  ⟨fun i => if (i : ℕ) = 0 then (x : F) else 0⟩

/-- `element_field_to_polymod`. -/
def elementFieldToPolymod (poly : Fin n → F) (g : F) : Polymod poly :=
  ⟨fun i => if (i : ℕ) = 0 then g else 0⟩

/-- `polymod_add`. -/
def polymodAdd (e f : Polymod poly) : Polymod poly := ⟨fun i => e.coeff i + f.coeff i⟩

/-- `polymod_sub`. -/
def polymodSub (e f : Polymod poly) : Polymod poly := ⟨fun i => e.coeff i - f.coeff i⟩

/-- `polymod_neg`. -/
def polymodNeg (f : Polymod poly) : Polymod poly := ⟨fun i => -f.coeff i⟩

/-- `polymod_double`. -/
def polymodDouble [FieldMethods F] (f : Polymod poly) : Polymod poly :=
  ⟨fun i => FieldMethods.double (f.coeff i)⟩

/-- `polymod_const_mul`. -/
def polymodConstMul (a : F) (e : Polymod poly) : Polymod poly := ⟨fun i => e.coeff i * a⟩

/-- `compute_x_powers`: the entries `x^n, x^(n+1), ...` modulo the polynomial. -/
def computeXPowers (poly : Fin n → F) : ℕ → Polymod poly
  | 0 => polymodNeg ⟨poly⟩
  | i + 1 =>
      let coeff := (computeXPowers poly i).coeff
      let coeff1 : Polymod poly := ⟨fun j => if (j : ℕ) = 0 then 0 else coeffAt coeff (j - 1)⟩
      let p0 := polymodConstMul (coeffAt coeff (n - 1)) (polymodNeg ⟨poly⟩)
      polymodAdd coeff1 p0

/-- The five coefficients that `kar_poly_2` writes. -/
structure KarPoly2 (F : Type*) where
  dst0 : F
  dst1 : F
  dst2 : F
  c3 : F
  c4 : F

/-- `kar_poly_2`: the product of two polynomials of degree two. -/
def karPoly2 (s1 s2 : Fin 3 → F) : KarPoly2 F :=
  let c3 := s1 0 + s1 1
  let c4 := s2 0 + s2 1
  let c01 := c3 * c4
  let c3 := s1 0 + s1 2
  let c4 := s2 0 + s2 2
  let c02 := c3 * c4
  let c3 := s1 1 + s1 2
  let c4 := s2 1 + s2 2
  let c12 := c3 * c4
  let dst1 := s1 1 * s2 1
  let dst0 := s1 0 * s2 0
  let c4 := s1 2 * s2 2
  let c3 := dst1 + c4
  let c3 := c12 - c3
  let dst2 := c4 + dst0
  let c02 := c02 - dst2
  let dst2 := dst1 + c02
  let c01 := c01 - dst0
  let dst1 := c01 - dst1
  ⟨dst0, dst1, dst2, c3, c4⟩

/-- `polymod_mul_degree3`. -/
def polymodMulDegree3 {poly : Fin 3 → F} (e f : Polymod poly) : Polymod poly :=
  let k := karPoly2 e.coeff f.coeff
  let res : Polymod poly := ⟨![k.dst0, k.dst1, k.dst2]⟩
  let p0 := polymodConstMul k.c3 (computeXPowers poly 0)
  let res := polymodAdd res p0
  let p0 := polymodConstMul k.c4 (computeXPowers poly 1)
  polymodAdd res p0

/-- `polymod_mul_degree6`: Karatsuba over two halves of three coefficients. -/
def polymodMulDegree6 {poly : Fin 6 → F} (e f : Polymod poly) : Polymod poly :=
  let a0 : Fin 3 → F := ![e.coeff 0, e.coeff 1, e.coeff 2]
  let a1 : Fin 3 → F := ![e.coeff 3, e.coeff 4, e.coeff 5]
  let b0 : Fin 3 → F := ![f.coeff 0, f.coeff 1, f.coeff 2]
  let b1 : Fin 3 → F := ![f.coeff 3, f.coeff 4, f.coeff 5]
  let s0 : Fin 3 → F := ![a0 0 + a1 0, a0 1 + a1 1, a0 2 + a1 2]
  let s1 : Fin 3 → F := ![b0 0 + b1 0, b0 1 + b1 1, b0 2 + b1 2]
  let s2 := karPoly2 s0 s1
  let s0 := karPoly2 a0 b0
  let s1 := karPoly2 a1 b1
  let dst3 := s0.c3 - s0.dst0
  let dst3 := dst3 - s1.dst0
  let dst3 := dst3 + s2.dst0
  let dst4 := s0.c4 - s0.dst1
  let dst4 := dst4 - s1.dst1
  let dst4 := dst4 + s2.dst1
  let dst5 := s2.dst2 - s0.dst2
  let dst5 := dst5 - s1.dst2
  let t0 := s2.c3 - s0.c3
  let t0 := t0 - s1.c3
  let t0 := t0 + s1.dst0
  let t1 := s2.c4 - s0.c4
  let t1 := t1 - s1.c4
  let t1 := t1 + s1.dst1
  let res : Polymod poly := ⟨![s0.dst0, s0.dst1, s0.dst2, dst3, dst4, dst5]⟩
  let res := polymodAdd res (polymodConstMul t0 (computeXPowers poly 0))
  let res := polymodAdd res (polymodConstMul t1 (computeXPowers poly 1))
  let res := polymodAdd res (polymodConstMul s1.dst2 (computeXPowers poly 2))
  let res := polymodAdd res (polymodConstMul s1.c3 (computeXPowers poly 3))
  polymodAdd res (polymodConstMul s1.c4 (computeXPowers poly 4))

/-- The low half `dst` and the high half `high` of an unreduced product. -/
structure Unreduced (F : Type*) where
  dst : ℕ → F
  high : ℕ → F

/-- Adds a product to the coefficient of `x^k`: to `dst[k]`, or to
`high[k - n]`. -/
def Unreduced.add (n : ℕ) (acc : Unreduced F) (k : ℕ) (c0 : F) : Unreduced F :=
  if k < n then { acc with dst := Function.update acc.dst k (acc.dst k + c0) }
  else { acc with high := Function.update acc.high (k - n) (acc.high (k - n) + c0) }

/-- The last loop of `polymod_mul` and `polymod_square`: every high coefficient
times its reduced power. -/
def Unreduced.reduce (poly : Fin n → F) (acc : Unreduced F) : Polymod poly :=
  (List.range (n - 1)).foldl
    (fun prod i => polymodAdd prod (polymodConstMul (acc.high i) (computeXPowers poly i)))
    ⟨fun i => acc.dst i⟩

/-- One turn of the outer loop of `polymod_mul`; its loops over `j < n - i` and
`j >= n - i` write the coefficient of `x^(i+j)`. -/
def polymodMulRow (e f : Polymod poly) (acc : Unreduced F) (i : ℕ) : Unreduced F :=
  (List.range n).foldl
    (fun (acc : Unreduced F) j => acc.add n (i + j) (coeffAt e.coeff i * coeffAt f.coeff j)) acc

/-- `polymod_mul`. -/
def polymodMul (e f : Polymod poly) : Polymod poly :=
  ((List.range n).foldl (polymodMulRow e f) ⟨fun _ => 0, fun _ => 0⟩).reduce poly

/-- `polymod_square_degree3`. -/
def polymodSquareDegree3 [FieldMethods F] {poly : Fin 3 → F} (e : Polymod poly) :
    Polymod poly :=
  let src := e.coeff
  let c3 := src 0 * src 1
  let c1 := src 0 * src 2
  let dst0 := FieldMethods.square (src 0)
  let c2 := src 1 * src 2
  let c0 := FieldMethods.square (src 2)
  let dst2 := FieldMethods.square (src 1)
  let dst1 := c3 + c3
  let c1 := c1 + c1
  let dst2 := dst2 + c1
  let res : Polymod poly := ⟨![dst0, dst1, dst2]⟩
  let p0 := polymodConstMul c0 (computeXPowers poly 1)
  let res := polymodAdd res p0
  let c2 := c2 + c2
  let p0 := polymodConstMul c2 (computeXPowers poly 0)
  polymodAdd res p0

/-- One turn of the outer loop of `polymod_square`: the square of a coefficient
and the doubled products with the later ones. -/
def polymodSquareRow [FieldMethods F] (e : Polymod poly) (acc : Unreduced F) (i : ℕ) :
    Unreduced F :=
  (List.range' (i + 1) (n - (i + 1))).foldl
    (fun (acc : Unreduced F) j =>
      let c0 := coeffAt e.coeff i * coeffAt e.coeff j
      acc.add n (i + j) (c0 + c0))
    (acc.add n (2 * i) (FieldMethods.square (coeffAt e.coeff i)))

/-- `polymod_square`. -/
def polymodSquare [FieldMethods F] (e : Polymod poly) : Polymod poly :=
  ((List.range n).foldl (polymodSquareRow e) ⟨fun _ => 0, fun _ => 0⟩).reduce poly

/-- The routine that `field_init_polymod` installs as `mul`. -/
def polymodFieldMul : {n : ℕ} → {poly : Fin n → F} → Polymod poly → Polymod poly → Polymod poly
  | 3, _, e, f => polymodMulDegree3 e f
  | 6, _, e, f => polymodMulDegree6 e f
  | _, _, e, f => polymodMul e f

/-- The routine that `field_init_polymod` installs as `square`. -/
def polymodFieldSquare [FieldMethods F] :
    {n : ℕ} → {poly : Fin n → F} → Polymod poly → Polymod poly
  | 3, _, e => polymodSquareDegree3 e
  | _, _, e => polymodSquare e

end Operations

namespace Polymod

variable {F : Type*} [CommRing F] {n : ℕ} {poly : Fin n → F}

/-- The class that an element stands for. -/
noncomputable def quotient (e : Polymod poly) : AdjoinRoot (monicPoly poly) := value poly e.coeff

theorem quotient_injective : Function.Injective (@quotient F _ n poly) :=
  fun _ _ same => Polymod.ext (value_injective poly same)

@[simp] theorem quotient_add (e f : Polymod poly) :
    (polymodAdd e f).quotient = e.quotient + f.quotient := value_add _ _

@[simp] theorem quotient_sub (e f : Polymod poly) :
    (polymodSub e f).quotient = e.quotient - f.quotient := value_sub _ _

@[simp] theorem quotient_neg (f : Polymod poly) : (polymodNeg f).quotient = -f.quotient :=
  value_neg _

@[simp] theorem quotient_constMul (a : F) (e : Polymod poly) :
    (polymodConstMul a e).quotient = AdjoinRoot.of _ a * e.quotient := value_mul_const _ _

@[simp] theorem quotient_double [FieldMethods F] (f : Polymod poly) :
    (polymodDouble f).quotient = f.quotient + f.quotient := by
  rw [← quotient_add]
  congr 1
  exact Polymod.ext (funext fun i => FieldMethods.double_eq _)

/-- A constant, in an extension of positive degree. -/
theorem quotient_fieldToPolymod (g : F) :
    (elementFieldToPolymod poly g).quotient = AdjoinRoot.of _ g := by
  cases n with
  | zero =>
      have trivial : (1 : AdjoinRoot (monicPoly poly)) = 0 := by
        simpa [value] using variable_pow_eq (m := poly)
      rw [← mul_one (AdjoinRoot.of _ g), ← mul_one (quotient _), trivial, mul_zero, mul_zero]
  | succ k => simp [quotient, value, elementFieldToPolymod, Fin.sum_univ_succ]

/-- The table holds the powers of the variable that the products reduce. -/
theorem quotient_computeXPowers (i : ℕ) :
    (computeXPowers poly i).quotient = root poly ^ (n + i) := by
  have first : (polymodNeg (⟨poly⟩ : Polymod poly)).quotient = root poly ^ n :=
    variable_pow_eq.symm
  induction i with
  | zero => exact first
  | succ i ih =>
      have shift := value_shift (m := poly) (computeXPowers poly i).coeff
      rw [← variable_pow_eq] at shift
      rw [computeXPowers, quotient_add, quotient_constMul, first]
      exact shift.trans (by rw [← quotient, ih]; ring)

theorem quotient_eq_sum_three {poly : Fin 3 → F} (e : Polymod poly) :
    e.quotient = AdjoinRoot.of _ (e.coeff 0) + AdjoinRoot.of _ (e.coeff 1) * root poly +
      AdjoinRoot.of _ (e.coeff 2) * root poly ^ 2 := by
  simp [quotient, value, Fin.sum_univ_three]

theorem quotient_mulDegree3 {poly : Fin 3 → F} (e f : Polymod poly) :
    (polymodMulDegree3 e f).quotient = e.quotient * f.quotient := by
  rw [polymodMulDegree3]
  simp only [quotient_add, quotient_constMul, quotient_computeXPowers]
  simp only [quotient_eq_sum_three, karPoly2, Matrix.cons_val_zero, Matrix.cons_val_one,
    Matrix.cons_val_two, Matrix.head_cons, Matrix.tail_cons, map_add, map_sub, map_mul]
  ring

theorem quotient_squareDegree3 [FieldMethods F] {poly : Fin 3 → F} (e : Polymod poly) :
    (polymodSquareDegree3 e).quotient = e.quotient * e.quotient := by
  rw [polymodSquareDegree3]
  simp only [quotient_add, quotient_constMul, quotient_computeXPowers]
  simp only [quotient_eq_sum_three, FieldMethods.square_eq, Matrix.cons_val_zero,
    Matrix.cons_val_one, Matrix.cons_val, map_add, map_mul]
  ring

theorem quotient_eq_sum_six {poly : Fin 6 → F} (e : Polymod poly) :
    e.quotient = AdjoinRoot.of _ (e.coeff 0) + AdjoinRoot.of _ (e.coeff 1) * root poly +
      AdjoinRoot.of _ (e.coeff 2) * root poly ^ 2 + AdjoinRoot.of _ (e.coeff 3) * root poly ^ 3 +
      AdjoinRoot.of _ (e.coeff 4) * root poly ^ 4 + AdjoinRoot.of _ (e.coeff 5) * root poly ^ 5 := by
  rw [quotient, value, Fin.sum_univ_six]
  simp only [Fin.val_zero, pow_zero, mul_one, Fin.val_one, pow_one]
  rfl

theorem quotient_mulDegree6 {poly : Fin 6 → F} (e f : Polymod poly) :
    (polymodMulDegree6 e f).quotient = e.quotient * f.quotient := by
  rw [polymodMulDegree6]
  simp only [quotient_add, quotient_constMul, quotient_computeXPowers]
  simp only [quotient_eq_sum_six, karPoly2, Matrix.cons_val, map_add, map_sub, map_mul]
  ring

end Polymod

namespace Unreduced

variable {F : Type*} [CommRing F] {n : ℕ}

/-- The class of an unreduced product. -/
noncomputable def quotient (poly : Fin n → F) (acc : Unreduced F) : AdjoinRoot (monicPoly poly) :=
  ∑ k ∈ Finset.range n, AdjoinRoot.of _ (acc.dst k) * root poly ^ k +
    ∑ k ∈ Finset.range (n - 1), AdjoinRoot.of _ (acc.high k) * root poly ^ (n + k)

variable {poly : Fin n → F}

@[simp] theorem quotient_zero : quotient poly ⟨fun _ => 0, fun _ => 0⟩ = 0 := by
  simp [quotient]

private theorem sum_update (poly : Fin n → F) (c : ℕ → F) {k m : ℕ} (inside : k < m) (c0 : F) (shift : ℕ) :
    ∑ i ∈ Finset.range m,
        AdjoinRoot.of (monicPoly poly) (Function.update c k (c k + c0) i) * root poly ^ (shift + i) =
      ∑ i ∈ Finset.range m, AdjoinRoot.of (monicPoly poly) (c i) * root poly ^ (shift + i) +
        AdjoinRoot.of _ c0 * root poly ^ (shift + k) := by
  rw [← Finset.sum_erase_add _ _ (Finset.mem_range.mpr inside),
    ← Finset.sum_erase_add (Finset.range m) (fun i => AdjoinRoot.of _ (c i) * _)
      (Finset.mem_range.mpr inside)]
  have others : ∀ i ∈ (Finset.range m).erase k,
      AdjoinRoot.of (monicPoly poly) (Function.update c k (c k + c0) i) * root poly ^ (shift + i) =
        AdjoinRoot.of _ (c i) * root poly ^ (shift + i) := by
    intro i member
    rw [Function.update_of_ne (Finset.ne_of_mem_erase member)]
  rw [Finset.sum_congr rfl others, Function.update_self, map_add]
  ring

/-- Adding to a coefficient below `x^(2n-1)` adds that multiple of the power. -/
theorem quotient_add (acc : Unreduced F) {k : ℕ} (bounded : k < 2 * n - 1) (c0 : F) :
    quotient poly (acc.add n k c0) = quotient poly acc + AdjoinRoot.of _ c0 * root poly ^ k := by
  rw [Unreduced.add]
  split
  · rename_i low
    have update := sum_update poly acc.dst low c0 0
    simp only [zero_add] at update
    simp only [quotient, update]
    ring
  · rename_i high
    have update := sum_update poly acc.high (k := k - n) (m := n - 1) (by omega) c0 n
    rw [show n + (k - n) = k by omega] at update
    simp only [quotient, update]
    ring

/-- Reduction replaces the high powers by their classes. -/
theorem quotient_reduce (acc : Unreduced F) :
    (acc.reduce poly).quotient = quotient poly acc := by
  have loop : ∀ m (init : Polymod poly),
      ((List.range m).foldl (fun prod i => polymodAdd prod
        (polymodConstMul (acc.high i) (computeXPowers poly i))) init).quotient =
      init.quotient + ∑ i ∈ Finset.range m, AdjoinRoot.of _ (acc.high i) * root poly ^ (n + i) := by
    intro m init
    induction m with
    | zero => simp
    | succ m ih =>
        rw [List.range_succ, List.foldl_append, Finset.sum_range_succ, ← add_assoc, ← ih]
        simp [Polymod.quotient_computeXPowers]
  rw [reduce, loop, quotient]
  congr 1
  exact Fin.sum_univ_eq_sum_range
    (fun k => AdjoinRoot.of (monicPoly poly) (acc.dst k) * root poly ^ k) n

end Unreduced

namespace Polymod

variable {F : Type*} [CommRing F] {n : ℕ} {poly : Fin n → F}

theorem quotient_eq_sum_range (e : Polymod poly) :
    e.quotient =
      ∑ i ∈ Finset.range n, AdjoinRoot.of _ (coeffAt e.coeff i) * root poly ^ i :=
  value_eq_sum_range _

private theorem quotient_mulRow (e f : Polymod poly) (acc : Unreduced F) {i : ℕ}
    (inside : i < n) :
    Unreduced.quotient poly (polymodMulRow e f acc i) =
      Unreduced.quotient poly acc +
        AdjoinRoot.of _ (coeffAt e.coeff i) * root poly ^ i * f.quotient := by
  have loop : ∀ m ≤ n,
      Unreduced.quotient poly ((List.range m).foldl (fun (acc : Unreduced F) j =>
        acc.add n (i + j) (coeffAt e.coeff i * coeffAt f.coeff j)) acc) =
      Unreduced.quotient poly acc + ∑ j ∈ Finset.range m,
        AdjoinRoot.of _ (coeffAt e.coeff i) * root poly ^ i *
          (AdjoinRoot.of _ (coeffAt f.coeff j) * root poly ^ j) := by
    intro m bounded
    induction m with
    | zero => simp
    | succ m ih =>
        rw [List.range_succ, List.foldl_append, Finset.sum_range_succ, ← add_assoc,
          ← ih (by omega), List.foldl_cons, List.foldl_nil,
          Unreduced.quotient_add _ (by omega), map_mul, pow_add]
        ring
  rw [polymodMulRow, loop n le_rfl, quotient_eq_sum_range f, Finset.mul_sum]

theorem quotient_mul (e f : Polymod poly) :
    (polymodMul e f).quotient = e.quotient * f.quotient := by
  have loop : ∀ m ≤ n,
      Unreduced.quotient poly ((List.range m).foldl (polymodMulRow e f)
        ⟨fun _ => 0, fun _ => 0⟩) =
      ∑ i ∈ Finset.range m,
        AdjoinRoot.of _ (coeffAt e.coeff i) * root poly ^ i * f.quotient := by
    intro m bounded
    induction m with
    | zero => simp
    | succ m ih =>
        rw [List.range_succ, List.foldl_append, Finset.sum_range_succ, ← ih (by omega),
          List.foldl_cons, List.foldl_nil, quotient_mulRow e f _ (by omega)]
  rw [polymodMul, Unreduced.quotient_reduce, loop n le_rfl, ← Finset.sum_mul,
    ← quotient_eq_sum_range]

/-- The square of a sum, by its diagonal and the doubled products above it. -/
private theorem sum_sq {R : Type*} [CommRing R] (a : ℕ → R) (n : ℕ) :
    ∑ i ∈ Finset.range n,
        (a i * a i + ∑ t ∈ Finset.range (n - (i + 1)), 2 * (a i * a (i + 1 + t))) =
      (∑ i ∈ Finset.range n, a i) * ∑ i ∈ Finset.range n, a i := by
  induction n generalizing a with
  | zero => simp
  | succ n ih =>
      have tail := ih fun i => a (i + 1)
      have first : ∑ t ∈ Finset.range n, 2 * (a 0 * a (0 + 1 + t)) =
          2 * a 0 * ∑ i ∈ Finset.range n, a (i + 1) := by
        rw [Finset.mul_sum]
        exact Finset.sum_congr rfl fun t _ => by rw [zero_add, add_comm 1]; ring
      have later : ∀ i t : ℕ, i + 1 + 1 + t = i + 1 + t + 1 := fun i t => by omega
      rw [Finset.sum_range_succ', Finset.sum_range_succ' a]
      simp only [Nat.add_sub_add_right, zero_add, Nat.add_sub_cancel, later] at *
      rw [tail, first]
      ring

private theorem quotient_squareRow [FieldMethods F] (e : Polymod poly) (acc : Unreduced F) {i : ℕ}
    (inside : i < n) :
    Unreduced.quotient poly (polymodSquareRow e acc i) =
      Unreduced.quotient poly acc +
        (AdjoinRoot.of _ (coeffAt e.coeff i) * root poly ^ i *
            (AdjoinRoot.of _ (coeffAt e.coeff i) * root poly ^ i) +
          ∑ t ∈ Finset.range (n - (i + 1)),
            2 * (AdjoinRoot.of _ (coeffAt e.coeff i) * root poly ^ i *
              (AdjoinRoot.of _ (coeffAt e.coeff (i + 1 + t)) * root poly ^ (i + 1 + t)))) := by
  have loop : ∀ m ≤ n - (i + 1), ∀ start : Unreduced F,
      Unreduced.quotient poly ((List.range' (i + 1) m).foldl (fun (acc : Unreduced F) j =>
        acc.add n (i + j) (coeffAt e.coeff i * coeffAt e.coeff j +
          coeffAt e.coeff i * coeffAt e.coeff j)) start) =
      Unreduced.quotient poly start + ∑ t ∈ Finset.range m,
        2 * (AdjoinRoot.of _ (coeffAt e.coeff i) * root poly ^ i *
          (AdjoinRoot.of _ (coeffAt e.coeff (i + 1 + t)) * root poly ^ (i + 1 + t))) := by
    intro m bounded start
    induction m with
    | zero => simp
    | succ m ih =>
        rw [List.range'_1_concat, List.foldl_append, Finset.sum_range_succ, ← add_assoc,
          ← ih (by omega), List.foldl_cons, List.foldl_nil,
          Unreduced.quotient_add _ (by omega), map_add, map_mul]
        ring
  rw [polymodSquareRow, loop _ le_rfl, Unreduced.quotient_add _ (by omega),
    FieldMethods.square_eq, map_mul]
  ring

theorem quotient_square [FieldMethods F] (e : Polymod poly) :
    (polymodSquare e).quotient = e.quotient * e.quotient := by
  have loop : ∀ m ≤ n,
      Unreduced.quotient poly ((List.range m).foldl (polymodSquareRow e)
        ⟨fun _ => 0, fun _ => 0⟩) =
      ∑ i ∈ Finset.range m,
        (AdjoinRoot.of _ (coeffAt e.coeff i) * root poly ^ i *
            (AdjoinRoot.of _ (coeffAt e.coeff i) * root poly ^ i) +
          ∑ t ∈ Finset.range (n - (i + 1)),
            2 * (AdjoinRoot.of _ (coeffAt e.coeff i) * root poly ^ i *
              (AdjoinRoot.of _ (coeffAt e.coeff (i + 1 + t)) * root poly ^ (i + 1 + t)))) := by
    intro m bounded
    induction m with
    | zero => simp
    | succ m ih =>
        rw [List.range_succ, List.foldl_append, Finset.sum_range_succ, ← ih (by omega),
          List.foldl_cons, List.foldl_nil, quotient_squareRow e _ (by omega)]
  rw [polymodSquare, Unreduced.quotient_reduce, loop n le_rfl,
    sum_sq fun i => AdjoinRoot.of (monicPoly poly) (coeffAt e.coeff i) * root poly ^ i,
    ← quotient_eq_sum_range]

/-- Every installed product is the product of classes. -/
theorem quotient_fieldMul (e f : Polymod poly) :
    (polymodFieldMul e f).quotient = e.quotient * f.quotient := by
  unfold polymodFieldMul
  split
  · exact quotient_mulDegree3 _ _
  · exact quotient_mulDegree6 _ _
  · exact quotient_mul _ _

theorem quotient_fieldSquare [FieldMethods F] (e : Polymod poly) :
    (polymodFieldSquare e).quotient = e.quotient * e.quotient := by
  unfold polymodFieldSquare
  split
  · exact quotient_squareDegree3 _
  · exact quotient_square _

theorem quotient_setSi (x : ℤ) : (polymodSetSi poly x).quotient = x := by
  have constant : (elementFieldToPolymod poly (x : F)).quotient = _ :=
    quotient_fieldToPolymod (x : F)
  rw [map_intCast] at constant
  exact constant

instance : Zero (Polymod poly) := ⟨polymodSetSi poly 0⟩
instance : One (Polymod poly) := ⟨polymodSetSi poly 1⟩
instance : Add (Polymod poly) := ⟨polymodAdd⟩
instance : Sub (Polymod poly) := ⟨polymodSub⟩
instance : Neg (Polymod poly) := ⟨polymodNeg⟩
instance : Mul (Polymod poly) := ⟨polymodFieldMul⟩
instance : IntCast (Polymod poly) := ⟨polymodSetSi poly⟩
instance : NatCast (Polymod poly) := ⟨fun k => polymodSetSi poly k⟩
instance : SMul ℕ (Polymod poly) := ⟨fun k e => ⟨fun i => k • e.coeff i⟩⟩
instance : SMul ℤ (Polymod poly) := ⟨fun k e => ⟨fun i => k • e.coeff i⟩⟩
instance : Pow (Polymod poly) ℕ := ⟨fun e k => npowRec k e⟩

private theorem quotient_smul (k : ℤ) (e : Polymod poly) :
    (⟨fun i => k • e.coeff i⟩ : Polymod poly).quotient = k • e.quotient := by
  simp only [quotient, value, zsmul_eq_mul, map_mul, map_intCast, Finset.mul_sum]
  exact Finset.sum_congr rfl fun i _ => mul_assoc _ _ _

private theorem quotient_pow (e : Polymod poly) (k : ℕ) :
    (npowRec k e).quotient = e.quotient ^ k := by
  induction k with
  | zero => exact ((quotient_setSi 1).trans Int.cast_one).trans (pow_zero _).symm
  | succ k ih => exact (quotient_fieldMul _ _).trans (by rw [ih, pow_succ])

private noncomputable abbrev laws (poly : Fin n → F) : CommRing (Polymod poly) :=
  Function.Injective.commRing quotient quotient_injective
    ((quotient_setSi 0).trans Int.cast_zero)
    ((quotient_setSi 1).trans Int.cast_one)
    quotient_add quotient_fieldMul quotient_neg quotient_sub
    (fun k e => by
      have scaled := quotient_smul (k : ℤ) e
      simp only [natCast_zsmul] at scaled
      exact scaled)
    (fun k e => quotient_smul k e)
    (fun e k => quotient_pow e k)
    (fun k => (quotient_setSi k).trans (Int.cast_natCast k))
    quotient_setSi

/-- The ring of the extension, with the operations of its routines. -/
instance : CommRing (Polymod poly) where
  add_assoc := (laws poly).add_assoc
  zero_add := (laws poly).zero_add
  add_zero := (laws poly).add_zero
  add_comm := (laws poly).add_comm
  neg_add_cancel := (laws poly).neg_add_cancel
  sub_eq_add_neg := (laws poly).sub_eq_add_neg
  left_distrib := (laws poly).left_distrib
  right_distrib := (laws poly).right_distrib
  zero_mul := (laws poly).zero_mul
  mul_zero := (laws poly).mul_zero
  mul_assoc := (laws poly).mul_assoc
  mul_comm := (laws poly).mul_comm
  one_mul := (laws poly).one_mul
  mul_one := (laws poly).mul_one
  nsmul k e := k • e
  nsmul_zero := (laws poly).nsmul_zero
  nsmul_succ := (laws poly).nsmul_succ
  zsmul k e := k • e
  zsmul_zero' := (laws poly).zsmul_zero'
  zsmul_succ' := (laws poly).zsmul_succ'
  zsmul_neg' := (laws poly).zsmul_neg'
  npow k e := npowRec k e
  natCast_zero := (laws poly).natCast_zero
  natCast_succ := (laws poly).natCast_succ
  intCast_ofNat := (laws poly).intCast_ofNat
  intCast_negSucc := (laws poly).intCast_negSucc

/-- Reading an element as a class respects the ring operations. -/
noncomputable def quotientHom (poly : Fin n → F) : Polymod poly →+* AdjoinRoot (monicPoly poly) where
  toFun := quotient
  map_one' := (quotient_setSi 1).trans Int.cast_one
  map_zero' := (quotient_setSi 0).trans Int.cast_zero
  map_add' := quotient_add
  map_mul' := quotient_fieldMul

theorem quotientHom_apply (e : Polymod poly) : quotientHom poly e = e.quotient := rfl

@[simp] theorem polymodAdd_eq (e f : Polymod poly) : polymodAdd e f = e + f := rfl

@[simp] theorem polymodSub_eq (e f : Polymod poly) : polymodSub e f = e - f := rfl

@[simp] theorem polymodNeg_eq (f : Polymod poly) : polymodNeg f = -f := rfl

@[simp] theorem coeff_zero (i : Fin n) : (0 : Polymod poly).coeff i = 0 := by
  have unfolded : (0 : Polymod poly).coeff i = if (i : ℕ) = 0 then ((0 : ℤ) : F) else 0 := rfl
  rw [unfolded, Int.cast_zero, ite_self]

theorem coeff_add (e f : Polymod poly) (i : Fin n) : (e + f).coeff i = e.coeff i + f.coeff i := rfl

theorem polymodDouble_eq [FieldMethods F] (f : Polymod poly) : polymodDouble f = f + f :=
  quotient_injective (by rw [quotient_double]; exact (quotient_add f f).symm)

theorem polymodFieldSquare_eq [FieldMethods F] (e : Polymod poly) :
    polymodFieldSquare e = e * e :=
  quotient_injective ((quotient_fieldSquare e).trans (quotient_fieldMul e e).symm)

/-- The constants of an extension. -/
instance : Algebra F (Polymod poly) :=
  RingHom.toAlgebra
    { toFun := elementFieldToPolymod poly
      map_one' := by
        apply quotient_injective
        rw [quotient_fieldToPolymod, map_one]
        exact (map_one (quotientHom poly)).symm
      map_zero' := by
        apply quotient_injective
        rw [quotient_fieldToPolymod, map_zero]
        exact (map_zero (quotientHom poly)).symm
      map_add' := fun a b => by
        apply quotient_injective
        rw [← quotientHom_apply, ← quotientHom_apply, map_add]
        simp only [quotientHom_apply, quotient_fieldToPolymod, map_add]
      map_mul' := fun a b => by
        apply quotient_injective
        rw [← quotientHom_apply, ← quotientHom_apply, map_mul]
        simp only [quotientHom_apply, quotient_fieldToPolymod, map_mul] }

theorem algebraMap_eq (a : F) : algebraMap F (Polymod poly) a = elementFieldToPolymod poly a := rfl

/-- `polymod_const_mul` multiplies by a constant. -/
@[simp] theorem polymodConstMul_eq (a : F) (e : Polymod poly) :
    polymodConstMul a e = algebraMap F (Polymod poly) a * e := by
  apply quotient_injective
  rw [quotient_constMul, ← quotientHom_apply (algebraMap _ _ a * e), map_mul, quotientHom_apply,
    quotientHom_apply, algebraMap_eq, quotient_fieldToPolymod]

end Polymod

section Field

variable {F : Type*} [Field F] {n : ℕ} {poly : Fin n → F}

/-- Over an irreducible polynomial every nonzero class has an inverse. -/
noncomputable instance [irreducible : Fact (Irreducible (monicPoly poly))] :
    Field (Polymod poly) where
  inv e := (value_surjective poly e.quotient⁻¹).choose |> Polymod.mk
  exists_pair_ne := ⟨0, 1, fun same => zero_ne_one
    (((map_zero (Polymod.quotientHom poly)).symm.trans (congrArg (Polymod.quotientHom poly) same)).trans
      (map_one (Polymod.quotientHom poly)))⟩
  mul_inv_cancel e nonzero := by
    apply Polymod.quotient_injective
    have inverse : (Polymod.mk (value_surjective poly e.quotient⁻¹).choose : Polymod poly).quotient =
        e.quotient⁻¹ := (value_surjective poly e.quotient⁻¹).choose_spec
    have unit : e.quotient ≠ 0 := fun zero => nonzero
      (Polymod.quotient_injective (zero.trans (map_zero (Polymod.quotientHom poly)).symm))
    refine (Polymod.quotient_fieldMul _ _).trans ?_
    rw [inverse, mul_inv_cancel₀ unit]
    exact (map_one (Polymod.quotientHom poly)).symm
  inv_zero := by
    apply Polymod.quotient_injective
    refine (value_surjective poly (Polymod.quotient 0)⁻¹).choose_spec.trans ?_
    have zero : (0 : Polymod poly).quotient = 0 := map_zero (Polymod.quotientHom poly)
    rw [zero, inv_zero]
  nnqsmul := _
  qsmul := _

end Field

end Pbc.Arith
