import Mathlib.Data.List.DropRight
import Mathlib.Data.List.GetD
import Mathlib.RingTheory.EuclideanDomain
import Pbc.Arith.Polymod

/-!
# Polynomials and the inverse modulo one

A polynomial is the list of its coefficients from the constant one up, without
leading zeroes. Division and the extended Euclidean loop work on these lists;
their results are read as polynomials of the base field. The inverse of an
element of a polynomial extension is the cofactor that the loop returns, cut to
the degree of the extension.
-/

open Polynomial Pbc.Algebra

namespace Pbc.Arith

section Operations

variable {F : Type*} [CommRing F] [DecidableEq F]

/-- `poly_remove_leading_zeroes`. -/
def polyRemoveLeadingZeroes (e : List F) : List F := e.rdropWhile (· = 0)

/-- `poly_sub`. -/
def polySub (f g : List F) : List F :=
  let diff := List.zipWithAll
    (fun
      | some x, some y => x - y
      | some x, none => x
      | none, some y => -y
      | none, none => 0) f g
  polyRemoveLeadingZeroes diff

/-- One coefficient of the product. -/
def polyMulCoeff (f g : List F) (i : ℕ) : F :=
  (List.range (i + 1)).foldl (fun x j =>
    if j < f.length ∧ i - j < g.length then x + f.getD j 0 * g.getD (i - j) 0 else x) 0

/-- `poly_mul`. -/
def polyMul (f g : List F) : List F :=
  if f.length = 0 ∨ g.length = 0 then []
  else
    let n := f.length + g.length - 1
    polyRemoveLeadingZeroes ((List.range n).map (polyMulCoeff f g))

/-- `poly_const_mul`. -/
def polyConstMul (a : F) (poly : List F) : List F :=
  polyRemoveLeadingZeroes (poly.map (a * ·))

/-- The loop of `poly_div`, from the quotient coefficient `k - 1` down. -/
def polyDivLoop (binv : F) (b : List F) (n : ℕ) : ℕ → List F → List F → List F × List F
  | 0, q, r => (q, r)
  | k + 1, q, r =>
      let qe := binv * r.getD (n + k) 0
      let r := r.mapIdx fun j x => if k ≤ j ∧ j ≤ n + k then x - qe * b.getD (j - k) 0 else x
      polyDivLoop binv b n k (q.set k qe) r

variable [FieldMethods F]

/-- `poly_div`: the quotient and the remainder. -/
def polyDiv (a b : List F) : Except Exit (List F × List F) :=
  if b.length = 0 then .error .divisionByZero
  else if b.length > a.length then .ok ([], a)
  else do
    let n := b.length - 1
    let k := a.length - b.length
    let binv ← FieldMethods.invert (b.getD n 0)
    let qr := polyDivLoop binv b n (k + 1) (List.replicate (k + 1) 0) a
    return (qr.1, polyRemoveLeadingZeroes qr.2)

/-- The loop of `poly_invert`. The fuel bounds the length of `r1`, so that none
of it means a division by the zero polynomial. -/
def polyInvertLoop : ℕ → List F → List F → List F → List F → Except Exit (List F × List F)
  | 0, _, _, _, _ => .error .divisionByZero
  | fuel + 1, b0, b1, r0, r1 => do
      let (q, r2) ← polyDiv r0 r1
      if r2.length = 0 then return (b1, r1)
      let b2 := polyMul b1 q
      let b2 := polySub b0 b2
      polyInvertLoop fuel b1 b2 r1 r2

/-- `poly_invert`. -/
def polyInvert (f m : List F) : Except Exit (List F) := do
  let (b1, r1) ← polyInvertLoop f.length [] [1] m f
  let inv ← FieldMethods.invert (r1.getD 0 0)
  return polyConstMul inv b1

variable {n : ℕ} {poly : Fin n → F}

/-- `element_polymod_to_poly`. -/
def elementPolymodToPoly (e : Polymod poly) : List F :=
  polyRemoveLeadingZeroes (List.ofFn e.coeff)

/-- The polynomial that the field stores. -/
def fieldPoly (poly : Fin n → F) : List F := List.ofFn poly ++ [1]

/-- `element_poly_to_polymod_truncate`. -/
def elementPolyToPolymodTruncate (poly : Fin n → F) (f : List F) : Polymod poly :=
  ⟨fun i => f.getD i 0⟩

/-- `polymod_invert`. -/
def polymodInvert (e : Polymod poly) : Except Exit (Polymod poly) := do
  let f := elementPolymodToPoly e
  let r1 ← polyInvert f (fieldPoly poly)
  return elementPolyToPolymodTruncate poly r1

/-- The methods of a polynomial extension. -/
instance : FieldMethods (Polymod poly) where
  square := polymodFieldSquare
  double := polymodDouble
  invert := polymodInvert
  square_eq := Polymod.polymodFieldSquare_eq
  double_eq := Polymod.polymodDouble_eq

end Operations

section Reading

variable {F : Type*} [Field F]

/-- The polynomial with the listed coefficients. -/
noncomputable def ofCoeffs : List F → F[X]
  | [] => 0
  | a :: f => C a + X * ofCoeffs f

theorem coeff_ofCoeffs (f : List F) (i : ℕ) : (ofCoeffs f).coeff i = f.getD i 0 := by
  induction f generalizing i with
  | nil => simp [ofCoeffs]
  | cons a f ih =>
    cases i with
    | zero => simp [ofCoeffs]
    | succ i => simp [ofCoeffs, ih, coeff_C_succ]

theorem ofCoeffs_eq_of_getD {f g : List F} (same : ∀ i, f.getD i 0 = g.getD i 0) :
    ofCoeffs f = ofCoeffs g := by
  ext i
  rw [coeff_ofCoeffs, coeff_ofCoeffs, same]

variable [DecidableEq F]

theorem getD_removeLeadingZeroes (e : List F) (i : ℕ) :
    (polyRemoveLeadingZeroes e).getD i 0 = e.getD i 0 := by
  induction e using List.reverseRecOn with
  | nil => simp [polyRemoveLeadingZeroes]
  | append_singleton e a ih =>
    by_cases zero : a = 0
    · have dropped : polyRemoveLeadingZeroes (e ++ [a]) = polyRemoveLeadingZeroes e :=
        List.rdropWhile_concat_pos _ _ _ (by simpa using zero)
      rw [dropped, ih, zero]
      rcases lt_trichotomy i e.length with inside | rfl | outside
      · rw [List.getD_append _ _ _ _ inside]
      · simp
      · rw [List.getD_eq_default _ _ (by omega),
          List.getD_eq_default _ _ (by simp only [List.length_append, List.length_singleton]; omega)]
    · have kept : polyRemoveLeadingZeroes (e ++ [a]) = e ++ [a] :=
        List.rdropWhile_concat_neg _ _ _ (by simpa using zero)
      rw [kept]

theorem length_removeLeadingZeroes_le (e : List F) :
    (polyRemoveLeadingZeroes e).length ≤ e.length :=
  (List.rdropWhile_prefix _ _).length_le

@[simp] theorem ofCoeffs_removeLeadingZeroes (e : List F) :
    ofCoeffs (polyRemoveLeadingZeroes e) = ofCoeffs e :=
  ofCoeffs_eq_of_getD (getD_removeLeadingZeroes e)

/-- A list without leading zeroes. -/
def Normal (e : List F) : Prop := polyRemoveLeadingZeroes e = e

theorem normal_removeLeadingZeroes (e : List F) : Normal (polyRemoveLeadingZeroes e) :=
  List.rdropWhile_idempotent _ _

/-- The last coefficient of a normal list is not zero. -/
theorem Normal.leading {e : List F} (normal : Normal e) (nonempty : e.length ≠ 0) :
    e.getD (e.length - 1) 0 ≠ 0 := by
  have nonempty' : e ≠ [] := by
    rintro rfl
    exact nonempty rfl
  have last := (List.rdropWhile_eq_self_iff.mp normal) nonempty'
  rw [List.getLast_eq_getElem] at last
  rw [List.getD_eq_getElem _ _ (by omega)]
  simpa using last

/-- A list shrinks when its top coefficients are zero. -/
theorem length_le_of_getD {e : List F} (normal : Normal e) {n : ℕ}
    (zero : ∀ i, n ≤ i → e.getD i 0 = 0) : e.length ≤ n := by
  by_contra long
  exact normal.leading (by omega) (zero _ (by omega))

private theorem length_zipWithAll {α β γ : Type*} (h : Option α → Option β → γ) (f : List α)
    (g : List β) : (List.zipWithAll h f g).length = max f.length g.length := by
  induction f generalizing g with
  | nil => cases g <;> simp
  | cons x f ih =>
    cases g with
    | nil => simp
    | cons y g => simp [ih, Nat.succ_max_succ]

theorem normal_polySub (f g : List F) : Normal (polySub f g) := normal_removeLeadingZeroes _

theorem length_polySub_le (f g : List F) : (polySub f g).length ≤ max f.length g.length :=
  (length_removeLeadingZeroes_le _).trans (length_zipWithAll _ f g).le

@[simp] theorem ofCoeffs_polySub (f g : List F) :
    ofCoeffs (polySub f g) = ofCoeffs f - ofCoeffs g := by
  ext i
  rw [polySub, ofCoeffs_removeLeadingZeroes, coeff_sub, coeff_ofCoeffs, coeff_ofCoeffs,
    coeff_ofCoeffs, List.getD_eq_getElem?_getD, List.getD_eq_getElem?_getD,
    List.getD_eq_getElem?_getD, List.getElem?_zipWithAll]
  cases f[i]? <;> cases g[i]? <;> simp

omit [DecidableEq F] in
private theorem foldl_if_add (t : ℕ → F) (p : ℕ → Prop) [DecidablePred p]
    (absent : ∀ j, ¬ p j → t j = 0) (k : ℕ) :
    (List.range k).foldl (fun x j => if p j then x + t j else x) 0 = ∑ j ∈ Finset.range k, t j := by
  induction k with
  | zero => rfl
  | succ k ih =>
    rw [List.range_succ, List.foldl_append, ih, Finset.sum_range_succ, List.foldl_cons,
      List.foldl_nil]
    split
    · rfl
    · next out => rw [absent k out, add_zero]

omit [DecidableEq F] in
theorem polyMulCoeff_eq (f g : List F) (i : ℕ) :
    polyMulCoeff f g i = (ofCoeffs f * ofCoeffs g).coeff i := by
  rw [polyMulCoeff, foldl_if_add (fun j => f.getD j 0 * g.getD (i - j) 0), coeff_mul,
    Finset.Nat.sum_antidiagonal_eq_sum_range_succ_mk]
  · simp only [coeff_ofCoeffs]
  · intro j out
    rcases not_and_or.mp out with beyond | beyond
    · rw [List.getD_eq_default _ _ (not_lt.mp beyond), zero_mul]
    · rw [List.getD_eq_default _ _ (not_lt.mp beyond), mul_zero]

theorem length_polyMul_le (f g : List F) : (polyMul f g).length ≤ f.length + g.length - 1 := by
  unfold polyMul
  split
  · exact Nat.zero_le _
  · exact (length_removeLeadingZeroes_le _).trans (by rw [List.length_map, List.length_range])

omit [DecidableEq F] in
private theorem ofCoeffs_eq_zero {f : List F} (empty : f.length = 0) : ofCoeffs f = 0 := by
  rw [List.length_eq_zero_iff.mp empty, ofCoeffs]

@[simp] theorem ofCoeffs_polyMul (f g : List F) :
    ofCoeffs (polyMul f g) = ofCoeffs f * ofCoeffs g := by
  unfold polyMul
  split
  · next empty =>
    rcases empty with empty | empty
    · rw [ofCoeffs_eq_zero empty, zero_mul, ofCoeffs]
    · rw [ofCoeffs_eq_zero empty, mul_zero, ofCoeffs]
  · next full =>
    rw [ofCoeffs_removeLeadingZeroes]
    ext i
    rw [coeff_ofCoeffs]
    by_cases inside : i < f.length + g.length - 1
    · rw [List.getD_eq_getElem _ _ (by simpa using inside), List.getElem_map, List.getElem_range,
        polyMulCoeff_eq]
    · rw [List.getD_eq_default _ _ (by simpa using inside), coeff_mul,
        Finset.sum_eq_zero]
      intro ij on
      have sum := Finset.HasAntidiagonal.mem_antidiagonal.mp on
      rw [coeff_ofCoeffs, coeff_ofCoeffs]
      by_cases first : f.length ≤ ij.1
      · rw [List.getD_eq_default _ _ first, zero_mul]
      · rw [List.getD_eq_default g _ (by omega), mul_zero]

theorem length_polyConstMul_le (a : F) (f : List F) : (polyConstMul a f).length ≤ f.length :=
  (length_removeLeadingZeroes_le _).trans (by rw [List.length_map])

@[simp] theorem ofCoeffs_polyConstMul (a : F) (f : List F) :
    ofCoeffs (polyConstMul a f) = C a * ofCoeffs f := by
  rw [polyConstMul, ofCoeffs_removeLeadingZeroes]
  induction f with
  | nil => simp [ofCoeffs]
  | cons x f ih =>
    rw [List.map_cons, ofCoeffs, ofCoeffs, ih, C_mul]
    ring

omit [DecidableEq F] in
/-- One step of long division: the top coefficient is cancelled. -/
private theorem ofCoeffs_step (b r : List F) (n k : ℕ) (qe : F)
    (degree : b.length ≤ n + 1) (room : n + k < r.length) :
    ofCoeffs (r.mapIdx fun j x =>
        if k ≤ j ∧ j ≤ n + k then x - qe * b.getD (j - k) 0 else x) =
      ofCoeffs r - C qe * (X ^ k * ofCoeffs b) := by
  ext j
  rw [coeff_sub, coeff_C_mul, coeff_X_pow_mul', coeff_ofCoeffs, coeff_ofCoeffs,
    List.getD_eq_getElem?_getD, List.getElem?_mapIdx]
  by_cases low : k ≤ j
  · rw [if_pos low, coeff_ofCoeffs]
    by_cases high : j ≤ n + k
    · rw [List.getElem?_eq_getElem (by omega), List.getD_eq_getElem r _ (by omega)]
      simp [low, high]
    · rw [List.getD_eq_default b _ (by omega), mul_zero, sub_zero, List.getD_eq_getElem?_getD]
      cases r[j]? <;> simp [high]
  · rw [if_neg low, mul_zero, sub_zero]
    simp only [List.getD_eq_getElem?_getD]
    cases r[j]? <;> simp [low]

omit [DecidableEq F] in
private theorem ofCoeffs_set (q : List F) (k : ℕ) (qe : F) (room : k < q.length)
    (zero : q.getD k 0 = 0) : ofCoeffs (q.set k qe) = ofCoeffs q + C qe * X ^ k := by
  ext j
  rw [coeff_add, coeff_C_mul_X_pow, coeff_ofCoeffs, coeff_ofCoeffs, List.getD_eq_getElem?_getD,
    List.getElem?_set]
  by_cases same : k = j
  · subst same
    rw [if_pos rfl, if_pos room, if_pos rfl, zero, zero_add, Option.getD_some]
  · rw [if_neg same, if_neg (Ne.symm same), add_zero, List.getD_eq_getElem?_getD]

omit [DecidableEq F] in
/-- The loop keeps quotient times divisor plus remainder, and lowers the
remainder below the degree of the divisor. -/
theorem polyDivLoop_spec {binv : F} {b : List F} {n : ℕ} (degree : b.length ≤ n + 1)
    (inverse : binv * b.getD n 0 = 1) (k : ℕ) (q r : List F) (room : k ≤ q.length)
    (zero : ∀ j, j < k → q.getD j 0 = 0) (long : n + k ≤ r.length)
    (low : ∀ j, n + k ≤ j → r.getD j 0 = 0) :
    (polyDivLoop binv b n k q r).1.length = q.length ∧
      ofCoeffs (polyDivLoop binv b n k q r).1 * ofCoeffs b +
          ofCoeffs (polyDivLoop binv b n k q r).2 = ofCoeffs q * ofCoeffs b + ofCoeffs r ∧
        ∀ j, n ≤ j → (polyDivLoop binv b n k q r).2.getD j 0 = 0 := by
  induction k generalizing q r with
  | zero => exact ⟨rfl, rfl, low⟩
  | succ k ih =>
    let qe := binv * r.getD (n + k) 0
    let r' := r.mapIdx fun j x => if k ≤ j ∧ j ≤ n + k then x - qe * b.getD (j - k) 0 else x
    have step : ofCoeffs r' = ofCoeffs r - C qe * (X ^ k * ofCoeffs b) :=
      ofCoeffs_step b r n k qe degree (by omega)
    have quotient := ofCoeffs_set q k qe (by omega) (zero k (by omega))
    have unset : ∀ j, j < k → (q.set k qe).getD j 0 = 0 := by
      intro j bounded
      rw [List.getD_eq_getElem?_getD, List.getElem?_set_ne (by omega),
        ← List.getD_eq_getElem?_getD]
      exact zero j (by omega)
    have lower : ∀ j, n + k ≤ j → r'.getD j 0 = 0 := by
      intro j above
      rw [← coeff_ofCoeffs, step, coeff_sub, coeff_C_mul, coeff_X_pow_mul', if_pos (by omega),
        coeff_ofCoeffs, coeff_ofCoeffs]
      rcases above.eq_or_lt with rfl | above
      · rw [Nat.add_sub_cancel]
        linear_combination -r.getD (n + k) 0 * inverse
      · rw [low j (by omega), List.getD_eq_default b _ (by omega), mul_zero, sub_zero]
    obtain ⟨size, sum, below⟩ := ih (q.set k qe) r' (by rw [List.length_set]; omega) unset
      (by rw [List.length_mapIdx]; omega) lower
    have unfolded : polyDivLoop binv b n (k + 1) q r =
        polyDivLoop binv b n k (q.set k qe) r' := rfl
    rw [quotient, step] at sum
    rw [unfolded]
    refine ⟨size.trans List.length_set, ?_, below⟩
    linear_combination sum

variable [FieldMethods F] [InvertsNonzero F]

/-- Long division by a polynomial with a leading coefficient. -/
theorem polyDiv_spec {a b : List F} (normal : Normal b) (nonzero : b.length ≠ 0)
    (degree : b.length ≤ a.length) :
    ∃ q r, polyDiv a b = .ok (q, r) ∧ ofCoeffs a = ofCoeffs q * ofCoeffs b + ofCoeffs r ∧
      Normal r ∧ r.length < b.length ∧ q.length = a.length + 1 - b.length := by
  have leading := normal.leading nonzero
  have inverse := inv_mul_cancel₀ leading
  have zeroes (j : ℕ) : (List.replicate (a.length - b.length + 1) (0 : F)).getD j 0 = 0 := by
    rw [List.getD_eq_getElem?_getD, List.getElem?_replicate]
    split <;> rfl
  obtain ⟨size, sum, below⟩ := polyDivLoop_spec (by omega) inverse (a.length - b.length + 1)
    (List.replicate (a.length - b.length + 1) 0) a (by rw [List.length_replicate])
    (fun j _ => zeroes j) (by omega) (fun j above => List.getD_eq_default _ _ (by omega))
  have empty : ofCoeffs (List.replicate (a.length - b.length + 1) (0 : F)) = 0 := by
    ext j
    rw [coeff_ofCoeffs, zeroes, coeff_zero]
  rw [empty, zero_mul, zero_add] at sum
  refine ⟨_, _, by
    rw [polyDiv, if_neg nonzero, if_neg (by omega)]
    simp only [InvertsNonzero.invert_ok leading]
    rfl, ?_,
    normal_removeLeadingZeroes _, ?_, ?_⟩
  · rw [ofCoeffs_removeLeadingZeroes, sum]
  · have bound := length_le_of_getD (normal_removeLeadingZeroes _)
      (fun j above => (getD_removeLeadingZeroes _ j).trans (below j above))
    omega
  · rw [size, List.length_replicate]
    omega

/-- What the extended Euclidean loop keeps of the running remainders `r0`, `r1`
and cofactors `b0`, `b1`, for the inverse of `f` modulo `m` of degree `degree`. -/
structure EuclidInvariant (f m : F[X]) (degree : ℕ) (b0 b1 r0 r1 : List F) : Prop where
  normal : Normal r1
  nonzero : r1.length ≠ 0
  decreasing : r1.length < r0.length
  coprime : IsCoprime (ofCoeffs r0) (ofCoeffs r1)
  cofactor0 : m ∣ ofCoeffs b0 * f - ofCoeffs r0
  cofactor1 : m ∣ ofCoeffs b1 * f - ofCoeffs r1
  size0 : b0.length + r1.length ≤ degree + 2
  size1 : b1.length + r0.length ≤ degree + 2

omit [FieldMethods F] [InvertsNonzero F] in
/-- A division with a remainder keeps the invariant. -/
theorem EuclidInvariant.step {f m : F[X]} {degree : ℕ} {b0 b1 r0 r1 q r2 : List F}
    (inv : EuclidInvariant f m degree b0 b1 r0 r1)
    (division : ofCoeffs r0 = ofCoeffs q * ofCoeffs r1 + ofCoeffs r2)
    (normal : Normal r2) (shorter : r2.length < r1.length)
    (size : q.length = r0.length + 1 - r1.length) (nonzero : r2.length ≠ 0) :
    EuclidInvariant f m degree b1 (polySub b0 (polyMul b1 q)) r1 r2 where
  normal := normal
  nonzero := nonzero
  decreasing := shorter
  coprime := by
    have swapped := inv.coprime
    rw [division, add_comm] at swapped
    exact (IsCoprime.add_mul_right_left_iff.mp swapped).symm
  cofactor0 := inv.cofactor1
  cofactor1 := by
    obtain ⟨u, hu⟩ := inv.cofactor0
    obtain ⟨v, hv⟩ := inv.cofactor1
    refine ⟨u - ofCoeffs q * v, ?_⟩
    rw [ofCoeffs_polySub, ofCoeffs_polyMul]
    linear_combination hu - ofCoeffs q * hv + division
  size0 := by
    have := inv.size1
    have := inv.decreasing
    omega
  size1 := by
    have difference := length_polySub_le b0 (polyMul b1 q)
    have product := length_polyMul_le b1 q
    have := inv.size0
    have := inv.size1
    have := inv.decreasing
    omega

/-- The loop ends with a constant remainder and its cofactor. -/
theorem polyInvertLoop_spec {f m : F[X]} {degree : ℕ} (fuel : ℕ) {b0 b1 r0 r1 : List F}
    (inv : EuclidInvariant f m degree b0 b1 r0 r1) (enough : r1.length ≤ fuel) :
    ∃ b r, polyInvertLoop fuel b0 b1 r0 r1 = .ok (b, r) ∧ r.getD 0 0 ≠ 0 ∧
      m ∣ ofCoeffs b * f - C (r.getD 0 0) ∧ b.length ≤ degree := by
  induction fuel generalizing b0 b1 r0 r1 with
  | zero => exact absurd (Nat.le_zero.mp enough) inv.nonzero
  | succ fuel ih =>
    obtain ⟨q, r2, divided, division, normal, shorter, size⟩ :=
      polyDiv_spec inv.normal inv.nonzero inv.decreasing.le
    rw [polyInvertLoop, divided]
    by_cases last : r2.length = 0
    · refine ⟨b1, r1, by simp [last, pure, Except.pure, bind, Except.bind], ?_⟩
      rw [ofCoeffs_eq_zero last, add_zero] at division
      have unit : IsUnit (ofCoeffs r1) :=
        inv.coprime.isUnit_of_dvd' ⟨ofCoeffs q, by rw [division, mul_comm]⟩ dvd_rfl
      obtain ⟨c, constant, same⟩ := Polynomial.isUnit_iff.mp unit
      have head : r1.getD 0 0 = c := by rw [← coeff_ofCoeffs, ← same, coeff_C_zero]
      have divides := inv.cofactor1
      have bound := inv.size1
      have longer := inv.decreasing
      have some := inv.nonzero
      rw [← same] at divides
      rw [head]
      exact ⟨constant.ne_zero, divides, by omega⟩
    · obtain ⟨b, r, result⟩ := ih (inv.step division normal shorter size last) (by omega)
      refine ⟨b, r, ?_, result.2⟩
      simpa [last, bind, Except.bind] using result.1

variable {n : ℕ} {poly : Fin n → F}

omit [DecidableEq F] [FieldMethods F] [InvertsNonzero F] in
theorem ofCoeffs_ofFn (c : Fin n → F) : ofCoeffs (List.ofFn c) = coeffPoly c := by
  ext j
  rw [coeff_ofCoeffs]
  by_cases inside : j < n
  · rw [List.getD_eq_getElem _ _ (by simpa using inside), List.getElem_ofFn]
    exact (coeff_coeffPoly c ⟨j, inside⟩).symm
  · rw [List.getD_eq_default _ _ (by simpa using inside), coeff_eq_zero_of_degree_lt]
    exact (degree_coeffPoly_lt c).trans_le (by exact_mod_cast not_lt.mp inside)

omit [DecidableEq F] [FieldMethods F] [InvertsNonzero F] in
theorem ofCoeffs_fieldPoly (poly : Fin n → F) : ofCoeffs (fieldPoly poly) = monicPoly poly := by
  have append (f : List F) : ofCoeffs (f ++ [1]) = X ^ f.length + ofCoeffs f := by
    induction f with
    | nil => simp [ofCoeffs]
    | cons a f ih =>
      rw [List.cons_append, ofCoeffs, ih, ofCoeffs, List.length_cons, pow_succ]
      ring
  rw [fieldPoly, append, List.length_ofFn, ofCoeffs_ofFn, monicPoly]

omit [FieldMethods F] [InvertsNonzero F] in
theorem ofCoeffs_polymodToPoly (e : Polymod poly) :
    ofCoeffs (elementPolymodToPoly e) = coeffPoly e.coeff := by
  rw [elementPolymodToPoly, ofCoeffs_removeLeadingZeroes, ofCoeffs_ofFn]

omit [DecidableEq F] [FieldMethods F] [InvertsNonzero F] in
/-- A polynomial of degree below the extension is kept by the truncation. -/
theorem coeffPoly_truncate {f : List F} (short : f.length ≤ n) :
    coeffPoly (elementPolyToPolymodTruncate poly f).coeff = ofCoeffs f := by
  rw [← ofCoeffs_ofFn]
  apply ofCoeffs_eq_of_getD
  intro j
  by_cases inside : j < n
  · rw [List.getD_eq_getElem _ _ (by simpa using inside), List.getElem_ofFn]
    rfl
  · rw [List.getD_eq_default _ _ (by simpa using inside), List.getD_eq_default _ _ (by omega)]

omit [FieldMethods F] [InvertsNonzero F] in
theorem polymodToPoly_length_eq_zero_iff (e : Polymod poly) :
    (elementPolymodToPoly e).length = 0 ↔ e = 0 := by
  constructor
  · intro empty
    apply Polymod.ext
    funext i
    rw [← coeff_coeffPoly e.coeff, ← ofCoeffs_polymodToPoly, ofCoeffs_eq_zero empty, coeff_zero,
      Polymod.coeff_zero]
  · rintro rfl
    refine Nat.le_zero.mp (length_le_of_getD (normal_removeLeadingZeroes _) fun j _ => ?_)
    rw [getD_removeLeadingZeroes, ← coeff_ofCoeffs, ofCoeffs_ofFn, coeffPoly, Finset.sum_eq_zero,
      coeff_zero]
    intro i _
    rw [Polymod.coeff_zero, C_0, zero_mul]

omit [InvertsNonzero F] in
/-- Inverting zero ends the program. -/
theorem polymodInvert_zero : polymodInvert (0 : Polymod poly) = .error .divisionByZero := by
  have empty := (polymodToPoly_length_eq_zero_iff (0 : Polymod poly)).mpr rfl
  rw [polymodInvert, polyInvert, empty]
  rfl

omit [FieldMethods F] [InvertsNonzero F] in
/-- The invariant holds when the loop starts on a nonzero element. -/
private theorem euclidInvariant_init [irreducible : Fact (Irreducible (monicPoly poly))]
    {e : Polymod poly} (nonzero : e ≠ 0) :
    EuclidInvariant (coeffPoly e.coeff) (monicPoly poly) n [] [1] (fieldPoly poly)
      (elementPolymodToPoly e) := by
  have long : (fieldPoly poly).length = n + 1 := by simp [fieldPoly]
  have short : (elementPolymodToPoly e).length ≤ n :=
    (length_removeLeadingZeroes_le _).trans (by rw [List.length_ofFn])
  have different : coeffPoly e.coeff ≠ 0 := by
    intro zero
    apply nonzero
    apply Polymod.ext
    funext i
    rw [← coeff_coeffPoly e.coeff, zero, coeff_zero, Polymod.coeff_zero]
  refine ⟨normal_removeLeadingZeroes _, ?_, by omega, ?_, ?_, ?_, ?_, ?_⟩
  · exact fun empty => nonzero ((polymodToPoly_length_eq_zero_iff e).mp empty)
  · rw [ofCoeffs_fieldPoly, ofCoeffs_polymodToPoly, irreducible.out.coprime_iff_not_dvd]
    refine (monicPoly_monic poly).not_dvd_of_degree_lt different ?_
    rw [degree_monicPoly]
    exact degree_coeffPoly_lt _
  · rw [ofCoeffs_fieldPoly]
    exact ⟨-1, by rw [ofCoeffs]; ring⟩
  · rw [ofCoeffs_polymodToPoly]
    exact ⟨0, by rw [ofCoeffs, ofCoeffs, C_1]; ring⟩
  · rw [List.length_nil]
    omega
  · rw [List.length_singleton, long]
    omega

/-- Over an irreducible polynomial every nonzero element is inverted. -/
theorem polymodInvert_ok [irreducible : Fact (Irreducible (monicPoly poly))] {e : Polymod poly}
    (nonzero : e ≠ 0) : ∃ b, polymodInvert e = .ok b ∧ e * b = 1 := by
  obtain ⟨b, r, looped, head, ⟨u, cofactor⟩, short⟩ :=
    polyInvertLoop_spec _ (euclidInvariant_init nonzero) le_rfl
  refine ⟨elementPolyToPolymodTruncate poly (polyConstMul (r.getD 0 0)⁻¹ b), ?_, ?_⟩
  · simp only [polymodInvert, polyInvert, looped, bind, Except.bind, InvertsNonzero.invert_ok head]
    rfl
  · have inverse : C (r.getD 0 0)⁻¹ * C (r.getD 0 0) = (1 : F[X]) := by
      rw [← C_mul, inv_mul_cancel₀ head, C_1]
    apply Polymod.quotient_injective
    refine (Polymod.quotient_fieldMul _ _).trans ?_
    refine Eq.trans ?_ (map_one (Polymod.quotientHom poly)).symm
    rw [Polymod.quotient, Polymod.quotient, value_eq_mk, value_eq_mk,
      coeffPoly_truncate ((length_polyConstMul_le _ _).trans short), ofCoeffs_polyConstMul,
      ← map_mul, ← map_one (AdjoinRoot.mk _), AdjoinRoot.mk_eq_mk]
    refine ⟨C (r.getD 0 0)⁻¹ * u, ?_⟩
    linear_combination C (r.getD 0 0)⁻¹ * cofactor + inverse

instance [irreducible : Fact (Irreducible (monicPoly poly))] : InvertsNonzero (Polymod poly) where
  invert_ok {e} nonzero := by
    obtain ⟨b, inverted, inverse⟩ := polymodInvert_ok nonzero
    rw [← eq_inv_of_mul_eq_one_right inverse]
    exact inverted

end Reading

end Pbc.Arith
