import Pbc.Algebra.RingCalls
import Pbc.Arith.Polymod

/-!
# Products of polynomial extensions on cells

The products of a polynomial extension on the cells that hold base elements. The routines for degree
three and six work in the cells of the result and of temporaries, which they use again; those for
any degree form the product in elements of their own and assign it last. Whatever objects coincide,
the result holds the product of what the operands held.
-/

open Pbc.Algebra

namespace Pbc.Arith

/-- The cells of base elements: the coefficients of a caller's elements, those of temporary elements
of the extension, and temporary base elements. -/
inductive PolymodCell (ι : Type) (n : ℕ) where
  | coeff (x : ι) (i : Fin n)
  | temp (t : ℕ) (i : Fin n)
  | base (k : ℕ)
  deriving DecidableEq

namespace PolymodCell

variable {ι : Type} {n : ℕ} {x : ι} {i j : Fin n} {t k : ℕ}

theorem coeff_ne_temp : coeff x i ≠ temp t j := by
  intro same
  cases same

theorem coeff_ne_base : coeff x i ≠ base k := by
  intro same
  cases same

theorem base_ne_temp : (base k : PolymodCell ι n) ≠ temp t j := by
  intro same
  cases same

theorem coeff_injective (x : ι) : Function.Injective (coeff (n := n) x) := by
  intro i j same
  exact (coeff.inj same).2

theorem temp_injective (t : ℕ) : Function.Injective (temp (ι := ι) (n := n) t) := by
  intro i j same
  exact (temp.inj same).2

end PolymodCell

section Operations

variable {κ ι F : Type} [CommRing F] [FieldMethods F]

local instance neZeroThree : NeZero (3 : ℕ) := ⟨three_ne_zero⟩

/-- `kar_poly_2`: its calls. -/
def karPoly2Calls (dst : Fin 3 → κ) (c3 c4 : κ) (s1 s2 scratch : Fin 3 → κ) : List (RingCall κ) :=
  let c12 := scratch 0
  let c02 := scratch 1
  let c01 := scratch 2
  [.add c3 (s1 0) (s1 1),
   .add c4 (s2 0) (s2 1),
   .mul c01 c3 c4,
   .add c3 (s1 0) (s1 2),
   .add c4 (s2 0) (s2 2),
   .mul c02 c3 c4,
   .add c3 (s1 1) (s1 2),
   .add c4 (s2 1) (s2 2),
   .mul c12 c3 c4,
   .mul (dst 1) (s1 1) (s2 1),
   .mul (dst 0) (s1 0) (s2 0),
   .mul c4 (s1 2) (s2 2),
   .add c3 (dst 1) c4,
   .sub c3 c12 c3,
   .add (dst 2) c4 (dst 0),
   .sub c02 c02 (dst 2),
   .add (dst 2) (dst 1) c02,
   .sub c01 c01 (dst 0),
   .sub (dst 1) c01 (dst 1)]

section Loops

variable [DecidableEq κ] {n : ℕ} {poly : Fin n → F}

/-- `polymod_add` on cells. -/
def polymodAddAt (r e f : Fin n → κ) : (κ → F) → κ → F :=
  assignLoop r fun i cells => cells (e i) + cells (f i)

/-- `polymod_const_mul` on cells, of an entry of the table of powers. -/
def polymodConstMulAt (res : Fin n → κ) (a : κ) (e : Polymod poly) : (κ → F) → κ → F :=
  assignLoop res fun i cells => e.coeff i * cells a

end Loops

/-- The element that an object holds. -/
def elementOf {n : ℕ} (poly : Fin n → F) (cells : PolymodCell ι n → F) (x : ι) : Polymod poly :=
  ⟨fun i => cells (.coeff x i)⟩

variable [DecidableEq ι]

/-- `polymod_mul_degree3` on cells, with `p0`, `c3` and `c4` its temporaries. -/
def polymodMulDegree3At (poly : Fin 3 → F) (res e f : ι) (cells : PolymodCell ι 3 → F) :
    PolymodCell ι 3 → F :=
  let dst := PolymodCell.coeff res
  let s1 := PolymodCell.coeff e
  let s2 := PolymodCell.coeff f
  let p0 := PolymodCell.temp 0
  let c3 := PolymodCell.base 3
  let c4 := PolymodCell.base 4
  let cells := runRingCalls FieldMethods.square (karPoly2Calls dst c3 c4 s1 s2 p0) cells
  let cells := polymodConstMulAt p0 c3 (computeXPowers poly 0) cells
  let cells := polymodAddAt dst dst p0 cells
  let cells := polymodConstMulAt p0 c4 (computeXPowers poly 1) cells
  polymodAddAt dst dst p0 cells

/-- The first calls of `polymod_mul_degree6`, the sums of the halves. -/
def degree6Sums (a b s0 s1 : Fin 6 → PolymodCell ι 6) : List (RingCall (PolymodCell ι 6)) :=
  [.add (s0 0) (a 0) (a 3),
   .add (s0 1) (a 1) (a 4),
   .add (s0 2) (a 2) (a 5),
   .add (s1 0) (b 0) (b 3),
   .add (s1 1) (b 1) (b 4),
   .add (s1 2) (b 2) (b 5)]

/-- The calls of `polymod_mul_degree6` after the three products, which use part of `s0` again. -/
def degree6Combine (dst s0 s1 s2 : Fin 6 → PolymodCell ι 6) : List (RingCall (PolymodCell ι 6)) :=
  [.set (dst 0) (s0 0),
   .set (dst 1) (s0 1),
   .set (dst 2) (s0 2),
   .sub (dst 3) (s0 3) (s0 0),
   .sub (dst 3) (dst 3) (s1 0),
   .add (dst 3) (dst 3) (s2 0),
   .sub (dst 4) (s0 4) (s0 1),
   .sub (dst 4) (dst 4) (s1 1),
   .add (dst 4) (dst 4) (s2 1),
   .sub (dst 5) (s2 2) (s0 2),
   .sub (dst 5) (dst 5) (s1 2),
   .sub (s0 0) (s2 3) (s0 3),
   .sub (s0 0) (s0 0) (s1 3),
   .add (s0 0) (s0 0) (s1 0),
   .sub (s0 1) (s2 4) (s0 4),
   .sub (s0 1) (s0 1) (s1 4),
   .add (s0 1) (s0 1) (s1 1)]

/-- `polymod_mul_degree6` on cells, with `p0` to `p3` its temporaries. -/
def polymodMulDegree6At (poly : Fin 6 → F) (res e f : ι) (cells : PolymodCell ι 6 → F) :
    PolymodCell ι 6 → F :=
  let dst := PolymodCell.coeff res
  let a0 := ![PolymodCell.coeff e 0, .coeff e 1, .coeff e 2]
  let a1 := ![PolymodCell.coeff e 3, .coeff e 4, .coeff e 5]
  let b0 := ![PolymodCell.coeff f 0, .coeff f 1, .coeff f 2]
  let b1 := ![PolymodCell.coeff f 3, .coeff f 4, .coeff f 5]
  let s0 := PolymodCell.temp 0
  let s1 := PolymodCell.temp 1
  let s2 := PolymodCell.temp 2
  let p3 := PolymodCell.temp 3
  let scratch := ![p3 0, p3 1, p3 2]
  let cells := runRingCalls FieldMethods.square (degree6Sums (.coeff e) (.coeff f) s0 s1) cells
  let cells := runRingCalls FieldMethods.square (karPoly2Calls ![s2 0, s2 1, s2 2] (s2 3) (s2 4)
    ![s0 0, s0 1, s0 2] ![s1 0, s1 1, s1 2] scratch) cells
  let cells := runRingCalls FieldMethods.square
    (karPoly2Calls ![s0 0, s0 1, s0 2] (s0 3) (s0 4) a0 b0 scratch) cells
  let cells := runRingCalls FieldMethods.square
    (karPoly2Calls ![s1 0, s1 1, s1 2] (s1 3) (s1 4) a1 b1 scratch) cells
  let cells := runRingCalls FieldMethods.square (degree6Combine dst s0 s1 s2) cells
  let cells := polymodConstMulAt p3 (s0 0) (computeXPowers poly 0) cells
  let cells := polymodAddAt dst dst p3 cells
  let cells := polymodConstMulAt p3 (s0 1) (computeXPowers poly 1) cells
  let cells := polymodAddAt dst dst p3 cells
  let cells := polymodConstMulAt p3 (s1 2) (computeXPowers poly 2) cells
  let cells := polymodAddAt dst dst p3 cells
  let cells := polymodConstMulAt p3 (s1 3) (computeXPowers poly 3) cells
  let cells := polymodAddAt dst dst p3 cells
  let cells := polymodConstMulAt p3 (s1 4) (computeXPowers poly 4) cells
  polymodAddAt dst dst p3 cells

/-- `polymod_mul` on cells. The product is formed in elements of the routine. -/
def polymodMulAt {n : ℕ} (poly : Fin n → F) (res e f : ι) (cells : PolymodCell ι n → F) :
    PolymodCell ι n → F :=
  let prod := polymodMul (elementOf poly cells e) (elementOf poly cells f)
  assignLoop (.coeff res) (fun i _ => prod.coeff i) cells

/-- The calls of `polymod_square_degree3` before the first reduction. -/
def squareDegree3Calls (dst src : Fin 3 → PolymodCell ι 3) (c0 c1 c2 c3 : PolymodCell ι 3) :
    List (RingCall (PolymodCell ι 3)) :=
  [.mul c3 (src 0) (src 1),
   .mul c1 (src 0) (src 2),
   .square (dst 0) (src 0),
   .mul c2 (src 1) (src 2),
   .square c0 (src 2),
   .square (dst 2) (src 1),
   .add (dst 1) c3 c3,
   .add c1 c1 c1,
   .add (dst 2) (dst 2) c1]

/-- `polymod_square_degree3` on cells. -/
def polymodSquareDegree3At (poly : Fin 3 → F) (res e : ι) (cells : PolymodCell ι 3 → F) :
    PolymodCell ι 3 → F :=
  let dst := PolymodCell.coeff res
  let src := PolymodCell.coeff e
  let p0 := PolymodCell.temp 0
  let c0 := PolymodCell.base 0
  let c2 := PolymodCell.base 2
  let cells := runRingCalls FieldMethods.square
    (squareDegree3Calls dst src c0 (p0 1) c2 (p0 0)) cells
  let cells := polymodConstMulAt p0 c0 (computeXPowers poly 1) cells
  let cells := polymodAddAt dst dst p0 cells
  let cells := runRingCalls FieldMethods.square [.add c2 c2 c2] cells
  let cells := polymodConstMulAt p0 c2 (computeXPowers poly 0) cells
  polymodAddAt dst dst p0 cells

/-- `polymod_square` on cells. The square is formed in elements of the routine. -/
def polymodSquareAt {n : ℕ} (poly : Fin n → F) (res e : ι) (cells : PolymodCell ι n → F) :
    PolymodCell ι n → F :=
  let prod := polymodSquare (elementOf poly cells e)
  assignLoop (.coeff res) (fun i _ => prod.coeff i) cells

end Operations

section Karatsuba

variable {κ F : Type} [DecidableEq κ] [CommRing F] {squared : F → F} {dst s1 s2 scratch : Fin 3 → κ}
  {c3 c4 : κ}

/-- Columns of cells that `kar_poly_2` tells apart. The result may share its cells with the operands,
index by index. -/
structure Columns (col : κ → ℕ) (dst : Fin 3 → κ) (c3 c4 : κ) (s1 s2 scratch : Fin 3 → κ) : Prop where
  dst : ∀ i, col (dst i) = i
  s1 : ∀ i, col (s1 i) = i
  s2 : ∀ i, col (s2 i) = i
  c3 : col c3 = 3
  c4 : col c4 = 4
  scratch : ∀ i, col (scratch i) = 5 + i

/-- The result and the two high coefficients that the calls leave. -/
theorem karPoly2Calls_values {col : κ → ℕ} (columns : Columns col dst c3 c4 s1 s2 scratch)
    (cells : κ → F) {k : KarPoly2 F}
    (product : karPoly2 (fun i => cells (s1 i)) (fun i => cells (s2 i)) = k) {after : κ → F}
    (run : runRingCalls squared (karPoly2Calls dst c3 c4 s1 s2 scratch) cells = after) :
    after (dst 0) = k.dst0 ∧ after (dst 1) = k.dst1 ∧ after (dst 2) = k.dst2 ∧ after c3 = k.c3 ∧
      after c4 = k.c4 := by
  have apart : ∀ {x y : κ}, col x ≠ col y → x ≠ y := fun differ same => differ (congrArg col same)
  obtain ⟨hdst, hs1, hs2, hc3, hc4, hscratch⟩ := columns
  simp (disch := (apply apart; simp only [hdst, hs1, hs2, hc3, hc4, hscratch]; decide)) only
    [karPoly2Calls, runRingCalls_nil, runRingCalls_add, runRingCalls_sub, runRingCalls_mul,
      Function.update_self, Function.update_of_ne] at run
  subst run product
  refine ⟨?_, ?_, ?_, ?_, ?_⟩ <;>
  · simp (disch := (apply apart; simp only [hdst, hs1, hs2, hc3, hc4, hscratch]; decide)) only
      [Function.update_self, Function.update_of_ne]
    rfl

/-- Other cells keep what they hold. -/
theorem karPoly2Calls_other {c : κ} (cells : κ → F) (result : ∀ i, c ≠ dst i) (high3 : c ≠ c3)
    (high4 : c ≠ c4) (temporary : ∀ i, c ≠ scratch i) :
    runRingCalls squared (karPoly2Calls dst c3 c4 s1 s2 scratch) cells c = cells c := by
  apply runRingCalls_other
  simp only [karPoly2Calls, List.forall_mem_cons, RingCall.destination]
  simp [result, high3, high4, temporary]

end Karatsuba

section Loops

variable {ι F : Type} [DecidableEq ι] {n : ℕ} {poly : Fin n → F} {res : ι}

/-- An assignment to the coefficients of an object assigns an element. -/
theorem elementOf_assign (element : Polymod poly) (cells : PolymodCell ι n → F) :
    elementOf poly (assignLoop (.coeff res) (fun i _ => element.coeff i) cells) =
      Function.update (elementOf poly cells) res element := by
  funext x
  by_cases here : x = res
  · subst here
    rw [Function.update_self]
    ext i
    exact assignLoop_self (PolymodCell.coeff_injective x) (fun _ _ _ _ _ => rfl) cells i
  · rw [Function.update_of_ne here]
    ext i
    refine assignLoop_other (fun j same => here ?_) cells
    exact (PolymodCell.coeff.inj same).1

/-- Cells of which only those of the result are changed. -/
theorem elementOf_eq_update {cells after : PolymodCell ι n → F}
    (kept : ∀ x i, x ≠ res → after (.coeff x i) = cells (.coeff x i)) :
    elementOf poly after = Function.update (elementOf poly cells) res (elementOf poly after res) := by
  funext x
  by_cases here : x = res
  · rw [here, Function.update_self]
  · rw [Function.update_of_ne here]
    ext i
    exact kept x i here

variable [CommRing F] {t : ℕ} {a : PolymodCell ι n} (power : Polymod poly) (cells : PolymodCell ι n → F)

/-- The cells that hold neither the result nor the multiple keep what they hold. -/
theorem addMultiple_other {c : PolymodCell ι n} (result : ∀ i, c ≠ .coeff res i)
    (temporary : ∀ i, c ≠ .temp t i) :
    polymodAddAt (.coeff res) (.coeff res) (.temp t) (polymodConstMulAt (.temp t) a power cells) c =
      cells c := by
  rw [polymodAddAt, assignLoop_other result, polymodConstMulAt, assignLoop_other temporary]

/-- A multiple of a power is formed in a temporary and added to the result. -/
theorem elementOf_addMultiple (apart : ∀ i, a ≠ .temp t i) :
    elementOf poly (polymodAddAt (.coeff res) (.coeff res) (.temp t)
        (polymodConstMulAt (.temp t) a power cells)) =
      Function.update (elementOf poly cells) res
        (polymodAdd (elementOf poly cells res) (polymodConstMul (cells a) power)) := by
  have multiple (i : Fin n) :
      polymodConstMulAt (.temp t) a power cells (.temp t i) = power.coeff i * cells a := by
    refine assignLoop_self (PolymodCell.temp_injective t) ?_ cells i
    intro i j other cells x
    dsimp only
    rw [Function.update_of_ne (apart j)]
  have kept (x : ι) (i : Fin n) :
      polymodConstMulAt (.temp t) a power cells (.coeff x i) = cells (.coeff x i) :=
    assignLoop_other (fun _ => PolymodCell.coeff_ne_temp) cells
  have injective := PolymodCell.coeff_injective (n := n) res
  have sum (i : Fin n) : polymodAddAt (.coeff res) (.coeff res) (.temp t)
      (polymodConstMulAt (.temp t) a power cells) (.coeff res i) =
        cells (.coeff res i) + power.coeff i * cells a := by
    refine (assignLoop_self injective ?_ _ i).trans ?_
    · intro i j other cells y
      dsimp only
      rw [Function.update_of_ne (injective.ne other.symm),
        Function.update_of_ne PolymodCell.coeff_ne_temp.symm]
    · rw [kept, multiple]
  have others (x : ι) (i : Fin n) (other : x ≠ res) :
      polymodAddAt (.coeff res) (.coeff res) (.temp t) (polymodConstMulAt (.temp t) a power cells)
        (.coeff x i) = cells (.coeff x i) :=
    addMultiple_other power cells (fun _ same => other (PolymodCell.coeff.inj same).1)
      fun _ => PolymodCell.coeff_ne_temp
  rw [elementOf_eq_update others]
  congr 1
  ext i
  exact sum i

end Loops

section Products

variable {ι F : Type} [DecidableEq ι] [CommRing F] [FieldMethods F]

/-- The columns of the cells in a product of degree three. -/
private def cellColumn : PolymodCell ι 3 → ℕ
  | .coeff _ i => i
  | .temp _ i => 5 + i
  | .base k => k

/-- `polymod_mul_degree3` on cells is the product of elements. -/
theorem polymodMulDegree3At_eq (poly : Fin 3 → F) (res e f : ι) (cells : PolymodCell ι 3 → F) :
    elementOf poly (polymodMulDegree3At poly res e f cells) =
      Function.update (elementOf poly cells) res
        (polymodMulDegree3 (elementOf poly cells e) (elementOf poly cells f)) := by
  obtain ⟨after, run⟩ : ∃ after, runRingCalls FieldMethods.square (karPoly2Calls
    (PolymodCell.coeff res) (.base 3) (.base 4) (.coeff e) (.coeff f) (.temp 0)) cells = after :=
    ⟨_, rfl⟩
  have columns : Columns cellColumn (PolymodCell.coeff res) (.base 3) (.base 4) (.coeff e) (.coeff f)
      (.temp 0) :=
    ⟨fun _ => rfl, fun _ => rfl, fun _ => rfl, rfl, rfl, fun _ => rfl⟩
  obtain ⟨value0, value1, value2, value3, value4⟩ := karPoly2Calls_values columns cells rfl run
  have kept (x : ι) (i : Fin 3) (other : x ≠ res) : after (.coeff x i) = cells (.coeff x i) := by
    rw [← run]
    refine karPoly2Calls_other cells (fun j same => other (PolymodCell.coeff.inj same).1) ?_ ?_ ?_
    · exact PolymodCell.coeff_ne_base
    · exact PolymodCell.coeff_ne_base
    · exact fun _ => PolymodCell.coeff_ne_temp
  have element : elementOf poly after res =
      ⟨![after (.coeff res 0), after (.coeff res 1), after (.coeff res 2)]⟩ := by
    ext i
    fin_cases i <;> rfl
  simp only [polymodMulDegree3At, run]
  rw [elementOf_addMultiple _ _ fun _ => PolymodCell.base_ne_temp,
    elementOf_addMultiple _ _ fun _ => PolymodCell.base_ne_temp, elementOf_eq_update kept, element,
    addMultiple_other _ _ (fun _ => PolymodCell.coeff_ne_base.symm) fun _ => PolymodCell.base_ne_temp,
    Function.update_self, Function.update_idem, Function.update_self, Function.update_idem, value0,
    value1, value2, value3, value4]
  rfl

/-- A product of `kar_poly_2` in the cells of a temporary element. -/
structure HoldsProduct (t : ℕ) (k : KarPoly2 F) (cells : PolymodCell ι 6 → F) : Prop where
  dst0 : cells (.temp t 0) = k.dst0
  dst1 : cells (.temp t 1) = k.dst1
  dst2 : cells (.temp t 2) = k.dst2
  c3 : cells (.temp t 3) = k.c3
  c4 : cells (.temp t 4) = k.c4

omit [FieldMethods F] in
/-- The calls for one of the three products, and what they keep. -/
theorem degree6Product {squared : F → F} {t : ℕ}
    {s1 s2 : Fin 3 → PolymodCell ι 6} {col : PolymodCell ι 6 → ℕ}
    (columns : Columns col ![.temp t 0, .temp t 1, .temp t 2] (.temp t 3) (.temp t 4) s1 s2
      ![.temp 3 0, .temp 3 1, .temp 3 2]) {cells after : PolymodCell ι 6 → F} {v1 v2 : Fin 3 → F}
    (left : ∀ i, cells (s1 i) = v1 i) (right : ∀ i, cells (s2 i) = v2 i)
    (run : runRingCalls squared (karPoly2Calls ![.temp t 0, .temp t 1, .temp t 2] (.temp t 3)
      (.temp t 4) s1 s2 ![.temp 3 0, .temp 3 1, .temp 3 2]) cells = after) :
    HoldsProduct t (karPoly2 v1 v2) after ∧
      (∀ x i, after (.coeff x i) = cells (.coeff x i)) ∧
      ∀ t' i, t' ≠ t → t' ≠ 3 → after (.temp t' i) = cells (.temp t' i) := by
  obtain rfl : (fun i => cells (s1 i)) = v1 := funext left
  obtain rfl : (fun i => cells (s2 i)) = v2 := funext right
  obtain ⟨value0, value1, value2, value3, value4⟩ := karPoly2Calls_values columns cells rfl run
  refine ⟨⟨value0, value1, value2, value3, value4⟩, fun x i => ?_, fun t' i other other' => ?_⟩
  · rw [← run]
    refine karPoly2Calls_other cells ?_ PolymodCell.coeff_ne_temp PolymodCell.coeff_ne_temp ?_
    · simp [Fin.forall_fin_succ]
    · simp [Fin.forall_fin_succ]
  · rw [← run]
    refine karPoly2Calls_other cells ?_ ?_ ?_ ?_ <;> simp [Fin.forall_fin_succ, other, other']

omit [FieldMethods F] in
/-- The coefficients below the sixth power and the new values of `s0`. -/
theorem degree6Combine_values {squared : F → F} (res : ι) {k0 k1 k2 : KarPoly2 F}
    {cells after : PolymodCell ι 6 → F} (product0 : HoldsProduct 0 k0 cells)
    (product1 : HoldsProduct 1 k1 cells) (product2 : HoldsProduct 2 k2 cells)
    (run : runRingCalls squared (degree6Combine (.coeff res) (.temp 0) (.temp 1) (.temp 2)) cells =
      after) :
    (∀ i, after (.coeff res i) = (![k0.dst0, k0.dst1, k0.dst2, k0.c3 - k0.dst0 - k1.dst0 + k2.dst0,
        k0.c4 - k0.dst1 - k1.dst1 + k2.dst1, k2.dst2 - k0.dst2 - k1.dst2] : Fin 6 → F) i) ∧
      after (.temp 0 0) = k2.c3 - k0.c3 - k1.c3 + k1.dst0 ∧
      after (.temp 0 1) = k2.c4 - k0.c4 - k1.c4 + k1.dst1 ∧
      (∀ i, after (.temp 1 i) = cells (.temp 1 i)) ∧
      ∀ x i, x ≠ res → after (.coeff x i) = cells (.coeff x i) := by
  simp (disch := simp) only [degree6Combine, runRingCalls_nil, runRingCalls_set, runRingCalls_add,
    runRingCalls_sub, Function.update_self, Function.update_of_ne, product0.dst0, product0.dst1,
    product0.dst2, product0.c3, product0.c4, product1.dst0, product1.dst1, product1.dst2, product1.c3,
    product1.c4, product2.dst0, product2.dst1, product2.dst2, product2.c3, product2.c4] at run
  subst run
  refine ⟨fun i => ?_, ?_, ?_, fun i => ?_, fun x i other => ?_⟩
  · fin_cases i <;> simp
  · simp
  · simp
  · simp
  · simp [other]

omit [DecidableEq ι] [CommRing F] [FieldMethods F] in
/-- A product in a temporary element is kept with its cells. -/
theorem HoldsProduct.keep {t : ℕ} {k : KarPoly2 F} {cells after : PolymodCell ι 6 → F}
    (holds : HoldsProduct t k cells) (kept : ∀ i, after (.temp t i) = cells (.temp t i)) :
    HoldsProduct t k after :=
  ⟨(kept 0).trans holds.dst0, (kept 1).trans holds.dst1, (kept 2).trans holds.dst2,
    (kept 3).trans holds.c3, (kept 4).trans holds.c4⟩

omit [FieldMethods F] in
/-- The sums of the halves. -/
theorem degree6Sums_values {squared : F → F} (e f : ι) {cells after : PolymodCell ι 6 → F}
    (run : runRingCalls squared (degree6Sums (.coeff e) (.coeff f) (.temp 0) (.temp 1)) cells =
      after) :
    (∀ i, after ((![.temp 0 0, .temp 0 1, .temp 0 2] : Fin 3 → PolymodCell ι 6) i) =
        (![cells (.coeff e 0) + cells (.coeff e 3), cells (.coeff e 1) + cells (.coeff e 4),
          cells (.coeff e 2) + cells (.coeff e 5)] : Fin 3 → F) i) ∧
      (∀ i, after ((![.temp 1 0, .temp 1 1, .temp 1 2] : Fin 3 → PolymodCell ι 6) i) =
        (![cells (.coeff f 0) + cells (.coeff f 3), cells (.coeff f 1) + cells (.coeff f 4),
          cells (.coeff f 2) + cells (.coeff f 5)] : Fin 3 → F) i) ∧
      ∀ x i, after (.coeff x i) = cells (.coeff x i) := by
  simp (disch := simp) only [degree6Sums, runRingCalls_nil, runRingCalls_add, Function.update_of_ne]
    at run
  subst run
  refine ⟨fun i => ?_, fun i => ?_, fun x i => ?_⟩
  · fin_cases i <;> simp
  · fin_cases i <;> simp
  · simp

/-- The columns of the cells in the three products. -/
private def productColumn : PolymodCell ι 6 → ℕ
  | .coeff _ i => i % 3
  | .temp t i => if t = 3 then 5 + i else i
  | .base _ => 0

omit [DecidableEq ι] in
/-- The products tell the cells of a temporary element from those of the operands. -/
private theorem productColumns {t : ℕ} (scratch : t ≠ 3) {s1 s2 : Fin 3 → PolymodCell ι 6}
    (left : ∀ i, productColumn (s1 i) = i) (right : ∀ i, productColumn (s2 i) = i) :
    Columns productColumn ![.temp t 0, .temp t 1, .temp t 2] (.temp t 3) (.temp t 4) s1 s2
      ![.temp 3 0, .temp 3 1, .temp 3 2] where
  dst i := by fin_cases i <;> exact if_neg scratch
  s1 := left
  s2 := right
  c3 := if_neg scratch
  c4 := if_neg scratch
  scratch i := by fin_cases i <;> rfl

/-- `polymod_mul_degree6` on cells is the product of elements. -/
theorem polymodMulDegree6At_eq (poly : Fin 6 → F) (res e f : ι) (cells : PolymodCell ι 6 → F) :
    elementOf poly (polymodMulDegree6At poly res e f cells) =
      Function.update (elementOf poly cells) res
        (polymodMulDegree6 (elementOf poly cells e) (elementOf poly cells f)) := by
  simp only [polymodMulDegree6At]
  obtain ⟨sums, run0⟩ : ∃ after, runRingCalls FieldMethods.square
    (degree6Sums (.coeff e) (.coeff f) (.temp 0) (.temp 1)) cells = after := ⟨_, rfl⟩
  obtain ⟨left, right, kept0⟩ := degree6Sums_values e f run0
  rw [run0]
  generalize run1 : runRingCalls FieldMethods.square (karPoly2Calls ![.temp 2 0, .temp 2 1, .temp 2 2]
    (.temp 2 3) (.temp 2 4) ![.temp 0 0, .temp 0 1, .temp 0 2] ![.temp 1 0, .temp 1 1, .temp 1 2]
    ![.temp 3 0, .temp 3 1, .temp 3 2]) sums = after1
  generalize run2 : runRingCalls FieldMethods.square (karPoly2Calls ![.temp 0 0, .temp 0 1, .temp 0 2]
    (.temp 0 3) (.temp 0 4) ![.coeff e 0, .coeff e 1, .coeff e 2] ![.coeff f 0, .coeff f 1, .coeff f 2]
    ![.temp 3 0, .temp 3 1, .temp 3 2]) after1 = after2
  generalize run3 : runRingCalls FieldMethods.square (karPoly2Calls ![.temp 1 0, .temp 1 1, .temp 1 2]
    (.temp 1 3) (.temp 1 4) ![.coeff e 3, .coeff e 4, .coeff e 5] ![.coeff f 3, .coeff f 4, .coeff f 5]
    ![.temp 3 0, .temp 3 1, .temp 3 2]) after2 = after3
  generalize run4 : runRingCalls FieldMethods.square
    (degree6Combine (.coeff res) (.temp 0) (.temp 1) (.temp 2)) after3 = after4
  obtain ⟨product2, kept1, temps1⟩ := degree6Product (productColumns (by decide)
    (fun i => by fin_cases i <;> rfl) fun i => by fin_cases i <;> rfl) left right run1
  have operand (x : ι) (i : Fin 6) : after1 (.coeff x i) = cells (.coeff x i) :=
    (kept1 x i).trans (kept0 x i)
  have low (x : ι) (i : Fin 3) :
      after1 ((![.coeff x 0, .coeff x 1, .coeff x 2] : Fin 3 → PolymodCell ι 6) i) =
        (![cells (.coeff x 0), cells (.coeff x 1), cells (.coeff x 2)] : Fin 3 → F) i := by
    fin_cases i <;> exact operand x _
  obtain ⟨product0, kept2, temps2⟩ := degree6Product (productColumns (by decide)
    (fun i => by fin_cases i <;> rfl) fun i => by fin_cases i <;> rfl) (low e) (low f) run2
  have operand' (x : ι) (i : Fin 6) : after2 (.coeff x i) = cells (.coeff x i) :=
    (kept2 x i).trans (operand x i)
  have high (x : ι) (i : Fin 3) :
      after2 ((![.coeff x 3, .coeff x 4, .coeff x 5] : Fin 3 → PolymodCell ι 6) i) =
        (![cells (.coeff x 3), cells (.coeff x 4), cells (.coeff x 5)] : Fin 3 → F) i := by
    fin_cases i <;> exact operand' x _
  obtain ⟨product1, kept3, temps3⟩ := degree6Product (productColumns (by decide)
    (fun i => by fin_cases i <;> rfl) fun i => by fin_cases i <;> rfl) (high e) (high f) run3
  have product0 := product0.keep fun i => temps3 0 i (by decide) (by decide)
  have product2 := product2.keep fun i =>
    (temps3 2 i (by decide) (by decide)).trans (temps2 2 i (by decide) (by decide))
  obtain ⟨result, high0, high1, rest, others⟩ :=
    degree6Combine_values res product0 product1 product2 run4
  have kept (x : ι) (i : Fin 6) (other : x ≠ res) : after4 (.coeff x i) = cells (.coeff x i) :=
    (others x i other).trans ((kept3 x i).trans (operand' x i))
  have element : elementOf poly after4 res = ⟨_⟩ := Polymod.ext (funext result)
  simp (disch := simp) only [elementOf_addMultiple, addMultiple_other, elementOf_eq_update kept,
    element, Function.update_self, Function.update_idem, high0, high1, rest, product1.dst2,
    product1.c3, product1.c4]
  rfl

/-- `polymod_square_degree3` on cells is the square of elements. -/
theorem polymodSquareDegree3At_eq (poly : Fin 3 → F) (res e : ι) (cells : PolymodCell ι 3 → F) :
    elementOf poly (polymodSquareDegree3At poly res e cells) =
      Function.update (elementOf poly cells) res (polymodSquareDegree3 (elementOf poly cells e)) := by
  simp only [polymodSquareDegree3At]
  obtain ⟨after, run⟩ : ∃ after, runRingCalls FieldMethods.square (squareDegree3Calls
    (PolymodCell.coeff res) (.coeff e) (.base 0) (.temp 0 1) (.base 2) (.temp 0 0)) cells = after :=
    ⟨_, rfl⟩
  rw [run]
  simp (disch := simp) only [squareDegree3Calls, runRingCalls_nil, runRingCalls_add,
    runRingCalls_mul, runRingCalls_square, Function.update_self, Function.update_of_ne] at run
  have kept (x : ι) (i : Fin 3) (other : x ≠ res) : after (.coeff x i) = cells (.coeff x i) := by
    rw [← run]
    simp [other]
  have result (i : Fin 3) : after (.coeff res i) =
      (![FieldMethods.square (cells (.coeff e 0)),
        cells (.coeff e 0) * cells (.coeff e 1) + cells (.coeff e 0) * cells (.coeff e 1),
        FieldMethods.square (cells (.coeff e 1)) +
          (cells (.coeff e 0) * cells (.coeff e 2) + cells (.coeff e 0) * cells (.coeff e 2))] :
        Fin 3 → F) i := by
    rw [← run]
    fin_cases i <;> simp
  have high0 : after (.base 0) = FieldMethods.square (cells (.coeff e 2)) := by
    rw [← run]
    simp
  have high2 : after (.base 2) = cells (.coeff e 1) * cells (.coeff e 2) := by
    rw [← run]
    simp
  have element : elementOf poly after res = ⟨_⟩ := Polymod.ext (funext result)
  have double (cells : PolymodCell ι 3 → F) (x : F) :
      elementOf poly (Function.update cells (.base 2) x) = elementOf poly cells := by
    funext y
    ext i
    have apart : (PolymodCell.coeff y i : PolymodCell ι 3) ≠ .base 2 := PolymodCell.coeff_ne_base
    exact Function.update_of_ne apart x cells
  simp (disch := simp) only [runRingCalls_add, runRingCalls_nil, elementOf_addMultiple, double,
    addMultiple_other, elementOf_eq_update kept, element, Function.update_self,
    Function.update_idem, high0, high2]
  rfl

/-- What an operation leaves: a residue in the result, and the other elements as they were. -/
def Leaves {n : ℕ} (poly : Fin n → F) (cells after : PolymodCell ι n → F) (res : ι)
    (residue : AdjoinRoot (monicPoly poly)) : Prop :=
  (elementOf poly after res).quotient = residue ∧
    ∀ x, x ≠ res → elementOf poly after x = elementOf poly cells x

omit [FieldMethods F] in
theorem leaves_of_update {n : ℕ} {poly : Fin n → F} {cells after : PolymodCell ι n → F} {res : ι}
    {element : Polymod poly}
    (update : elementOf poly after = Function.update (elementOf poly cells) res element)
    {residue : AdjoinRoot (monicPoly poly)} (value : element.quotient = residue) :
    Leaves poly cells after res residue := by
  rw [Leaves, update, Function.update_self]
  exact ⟨value, fun x other => Function.update_of_ne other _ _⟩

/-- Every product and square of an extension leaves the product of the operands modulo the
polynomial, whatever objects coincide. -/
theorem polymodProducts_exact (res e f : ι) :
    (∀ {n : ℕ} (poly : Fin n → F) (cells : PolymodCell ι n → F),
      Leaves poly cells (polymodMulAt poly res e f cells) res
          ((elementOf poly cells e).quotient * (elementOf poly cells f).quotient) ∧
        Leaves poly cells (polymodSquareAt poly res e cells) res
          ((elementOf poly cells e).quotient * (elementOf poly cells e).quotient)) ∧
    (∀ (poly : Fin 3 → F) (cells : PolymodCell ι 3 → F),
      Leaves poly cells (polymodMulDegree3At poly res e f cells) res
          ((elementOf poly cells e).quotient * (elementOf poly cells f).quotient) ∧
        Leaves poly cells (polymodSquareDegree3At poly res e cells) res
          ((elementOf poly cells e).quotient * (elementOf poly cells e).quotient)) ∧
    ∀ (poly : Fin 6 → F) (cells : PolymodCell ι 6 → F),
      Leaves poly cells (polymodMulDegree6At poly res e f cells) res
        ((elementOf poly cells e).quotient * (elementOf poly cells f).quotient) := by
  refine ⟨fun poly cells => ⟨?_, ?_⟩, fun poly cells => ⟨?_, ?_⟩, fun poly cells => ?_⟩
  · exact leaves_of_update (elementOf_assign _ cells) (Polymod.quotient_mul _ _)
  · exact leaves_of_update (elementOf_assign _ cells) (Polymod.quotient_square _)
  · exact leaves_of_update (polymodMulDegree3At_eq poly res e f cells) (Polymod.quotient_mulDegree3 _ _)
  · exact leaves_of_update (polymodSquareDegree3At_eq poly res e cells) (Polymod.quotient_squareDegree3 _)
  · exact leaves_of_update (polymodMulDegree6At_eq poly res e f cells) (Polymod.quotient_mulDegree6 _ _)

end Products

end Pbc.Arith
