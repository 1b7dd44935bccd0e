import Pbc.Arith.PolyRuns

/-!
# Division and Euclid's algorithm on objects

`poly_div` works on a copy of the dividend and a quotient array of its own, with every access to a
coefficient checked. It refines the division of coefficient lists, whatever objects receive the
results. From it come the inverse in a polynomial extension and the greatest common divisor.
-/

open Polynomial Pbc.Algebra

namespace Pbc.Arith

/-- What ends a program with polynomials: a message, or an access outside a coefficient array. -/
inductive PolyFault where
  | exit (message : Exit)
  | outOfRange
  deriving DecidableEq, Repr

section Operations

variable {F ι : Type} [Field F] [DecidableEq F]

/-- `poly_coeff`, or an item of the array, at an index of type `int`. -/
def polyCoeff (f : List F) (i : ℤ) : Except PolyFault F :=
  if 0 ≤ i ∧ i < f.length then .ok (f.getD i.toNat 0) else .error .outOfRange

/-- A write to an item of the array. -/
def setPolyCoeff (f : List F) (i : ℤ) (a : F) : Except PolyFault (List F) :=
  if 0 ≤ i ∧ i < f.length then .ok (f.set i.toNat a) else .error .outOfRange

/-- The inner loop of `poly_div`, over the indices that are left. -/
def polyDivRow (b : List F) (qe : F) (k : ℤ) : List ℕ → List F → Except PolyFault (List F)
  | [], r => .ok r
  | i :: rest, r => do
      let e0 := qe * (← polyCoeff b i)
      let r ← setPolyCoeff r (i + k) ((← polyCoeff r (i + k)) - e0)
      polyDivRow b qe k rest r

/-- The outer loop of `poly_div` while `k >= 0`, from the `k` one above the index. -/
def polyDivTurns (binv : F) (b : List F) (n : ℕ) :
    ℕ → ℤ → List F → List F → Except PolyFault (List F × List F)
  | 0, _, q, r => .ok (q, r)
  | k + 1, m, q, r => do
      let qe := binv * (← polyCoeff r m)
      let q ← setPolyCoeff q k qe
      let r ← polyDivRow b qe k (List.range (n + 1)) r
      polyDivTurns binv b n k (m - 1) q r

variable [FieldMethods F] [DecidableEq ι]

/-- `poly_div` on objects. -/
def polyDivAt (quot rem a b : ι) (polys : ι → List F) : Except PolyFault (ι → List F) := do
  if polyIs0 (polys b) then throw (.exit .divisionByZero)
  let n := polyDegree (polys b)
  let m := polyDegree (polys a)
  if n > m then
    let polys := Function.update polys rem (polys a)
    return Function.update polys quot []
  let r := polys a
  let k := m - n
  let q := List.replicate (k + 1).toNat 0
  let binv ← (FieldMethods.invert (← polyCoeff (polys b) n)).mapError .exit
  let (q, r) ← polyDivTurns binv (polys b) n.toNat (k + 1).toNat m q r
  let r := polyRemoveLeadingZeroes r
  let polys := Function.update polys quot q
  return Function.update polys rem r

/-- `polymod_invert` on elements. -/
def polymodInvertAt {n : ℕ} {poly : Fin n → F} (r e : ι) (objects : ι → Polymod poly) :
    Except Exit (ι → Polymod poly) := do
  let f := elementPolymodToPoly (objects e)
  let r1 ← polyInvert f (fieldPoly poly)
  return Function.update objects r (elementPolyToPolymodTruncate poly r1)

/-- `poly_gcd` on objects. -/
def polyGcdAt (d f g : ι) (polys : ι → List F) : Except Exit (ι → List F) := do
  let a := polys f
  let b := polys g
  let b ← polyGcdLoop b.length a b
  return Function.update polys d b

end Operations

section Accesses

variable {F : Type} [Field F] {b q r : List F}

theorem polyCoeff_ok {f : List F} {i : ℕ} (inside : i < f.length) :
    polyCoeff f i = .ok (f.getD i 0) := by
  rw [polyCoeff, if_pos (by omega), Int.toNat_natCast]

omit [Field F] in
theorem setPolyCoeff_ok {f : List F} {i : ℕ} (inside : i < f.length) (a : F) :
    setPolyCoeff f i a = .ok (f.set i a) := by
  rw [setPolyCoeff, if_pos (by omega), Int.toNat_natCast]

/-- The part of the inner loop that changes the coefficients from `k` on, below `k + j`. -/
private def rowPart (b : List F) (qe : F) (k j : ℕ) (r : List F) : List F :=
  r.mapIdx fun i x => if k ≤ i ∧ i < k + j then x - qe * b.getD (i - k) 0 else x

private theorem rowPart_succ (b : List F) (qe : F) (k j : ℕ) (r : List F) :
    (rowPart b qe k j r).set (j + k) (r.getD (j + k) 0 - qe * b.getD j 0) =
      rowPart b qe k (j + 1) r := by
  apply List.ext_getElem?
  intro i
  rw [List.getElem?_set, rowPart, rowPart, List.getElem?_mapIdx, List.getElem?_mapIdx,
    List.length_mapIdx]
  by_cases here : j + k = i
  · subst here
    rw [if_pos rfl]
    by_cases inside : j + k < r.length
    · rw [if_pos inside, List.getElem?_eq_getElem inside, List.getD_eq_getElem r _ inside,
        Option.map_some, if_pos (by omega), Nat.add_sub_cancel]
    · rw [if_neg inside, List.getElem?_eq_none (not_lt.mp inside), Option.map_none]
  · rw [if_neg here]
    have same : (k ≤ i ∧ i < k + j) ↔ (k ≤ i ∧ i < k + (j + 1)) := by omega
    simp only [same]

/-- The inner loop goes from one part to a longer one. -/
private theorem polyDivRow_part {k : ℕ} (qe : F) (c : ℕ) :
    ∀ j, j + c ≤ b.length → j + c + k ≤ r.length →
      polyDivRow b qe k (List.range' j c) (rowPart b qe k j r) = .ok (rowPart b qe k (j + c) r) := by
  induction c with
  | zero => exact fun j _ _ => rfl
  | succ c ih =>
    intro j degree room
    have inside : j + k < r.length := by omega
    have current : (rowPart b qe k j r).getD (j + k) 0 = r.getD (j + k) 0 := by
      rw [rowPart, List.getD_eq_getElem?_getD, List.getElem?_mapIdx, List.getD_eq_getElem?_getD,
        List.getElem?_eq_getElem inside, Option.map_some, if_neg (by omega), Option.getD_some,
        List.getD_eq_getElem r _ inside]
    have size : (rowPart b qe k j r).length = r.length := List.length_mapIdx
    have index : (j : ℤ) + k = (j + k : ℕ) := by push_cast; rfl
    rw [List.range'_succ, polyDivRow, polyCoeff_ok (by omega), index]
    simp only [bind, Except.bind]
    rw [polyCoeff_ok (by omega)]
    simp only
    rw [setPolyCoeff_ok (by omega), current]
    simp only
    rw [rowPart_succ, ih (j + 1) (by omega) (by omega), Nat.add_assoc j 1 c, Nat.add_comm 1 c]

/-- The inner loop stays within the arrays. -/
theorem polyDivRow_ok {n k : ℕ} (qe : F) (degree : n < b.length) (room : n + k < r.length) :
    polyDivRow b qe k (List.range (n + 1)) r =
      .ok (r.mapIdx fun i x => if k ≤ i ∧ i ≤ n + k then x - qe * b.getD (i - k) 0 else x) := by
  have start : rowPart b qe k 0 r = r := by
    apply List.ext_getElem?
    intro i
    rw [rowPart, List.getElem?_mapIdx]
    cases r[i]? with
    | none => rfl
    | some x => rw [Option.map_some, if_neg (by omega)]
  have run := polyDivRow_part (b := b) (r := r) (k := k) qe (n + 1) 0 (by omega) (by omega)
  rw [start, ← List.range_eq_range', Nat.zero_add] at run
  have bound (i : ℕ) : (k ≤ i ∧ i < k + (n + 1)) ↔ (k ≤ i ∧ i ≤ n + k) := by omega
  rw [run, rowPart]
  simp only [bound]

/-- The outer loop stays within the arrays and computes as the division of lists. -/
theorem polyDivTurns_ok (binv : F) {n : ℕ} (degree : n < b.length) (k : ℕ) (q r : List F)
    (room : k ≤ q.length) (long : n + k ≤ r.length) :
    polyDivTurns binv b n k ((n + k : ℕ) - 1) q r = .ok (polyDivLoop binv b n k q r) := by
  induction k generalizing q r with
  | zero => rfl
  | succ k ih =>
    have top : ((n + (k + 1) : ℕ) : ℤ) - 1 = (n + k : ℕ) := by
      push_cast
      ring
    rw [polyDivTurns, top, polyCoeff_ok (by omega)]
    simp only [bind, Except.bind]
    rw [setPolyCoeff_ok (by omega)]
    simp only [polyDivRow_ok _ degree (show n + k < r.length by omega)]
    exact ih _ _ (by rw [List.length_set]; omega) (by rw [List.length_mapIdx]; omega)

end Accesses

section Division

variable {F ι : Type} [Field F] [DecidableEq F] [FieldMethods F] [InvertsNonzero F] [DecidableEq ι]
  {polys : ι → List F} {a b : ι}

/-- `poly_div` on objects is the division of lists, with both results written. -/
theorem polyDivAt_eq {quot rem : ι} (apart : quot ≠ rem) (normal : Normal (polys b)) {q r : List F}
    (division : polyDiv (polys a) (polys b) = .ok (q, r)) :
    polyDivAt quot rem a b polys = .ok (Function.update (Function.update polys quot q) rem r) := by
  by_cases empty : (polys b).length = 0
  · rw [polyDiv, if_pos empty] at division
    cases division
  have apart' : ¬polyIs0 (polys b) = true := by
    rw [polyIs0, decide_eq_true_iff]
    exact empty
  by_cases shorter : (polys b).length > (polys a).length
  · have degree : polyDegree (polys b) > polyDegree (polys a) := by
      rw [polyDegree, polyDegree]
      omega
    rw [polyDiv, if_neg empty, if_pos shorter] at division
    cases division
    rw [polyDivAt, if_neg apart', if_pos degree, Function.update_comm apart]
    rfl
  · have degree : ¬polyDegree (polys b) > polyDegree (polys a) := by
      rw [polyDegree, polyDegree]
      omega
    have lead : polyDegree (polys b) = ((polys b).length - 1 : ℕ) := by
      rw [polyDegree]
      omega
    have turns : (polyDegree (polys a) - polyDegree (polys b) + 1).toNat =
        (polys a).length - (polys b).length + 1 := by
      rw [polyDegree, polyDegree]
      omega
    have top : polyDegree (polys a) =
        (((polys b).length - 1 + ((polys a).length - (polys b).length + 1) : ℕ) : ℤ) - 1 := by
      rw [polyDegree]
      omega
    have inverse := InvertsNonzero.invert_ok (normal.leading empty)
    have run := polyDivTurns_ok ((polys b).getD ((polys b).length - 1) 0)⁻¹
      (show (polys b).length - 1 < (polys b).length by omega) ((polys a).length - (polys b).length + 1)
      (List.replicate ((polys a).length - (polys b).length + 1) 0) (polys a)
      (by rw [List.length_replicate]) (by omega)
    rw [← top] at run
    rw [polyDiv, if_neg empty, if_neg shorter] at division
    simp only [inverse, bind, Except.bind, pure, Except.pure] at division
    obtain ⟨rfl, rfl⟩ := Prod.mk.inj (Except.ok.inj division)
    rw [polyDivAt, if_neg apart', if_neg degree]
    simp only [turns]
    rw [lead, polyCoeff_ok (by omega)]
    simp only [bind, Except.bind]
    rw [inverse]
    simp only [Except.mapError, Int.toNat_natCast]
    rw [run]
    rfl

/-- Division by a nonzero polynomial ends with a quotient and a shorter remainder. -/
theorem polyDiv_ok {a b : List F} (left : Normal a) (right : Normal b) (nonzero : b ≠ []) :
    ∃ q r, polyDiv a b = .ok (q, r) ∧ ofCoeffs a = ofCoeffs q * ofCoeffs b + ofCoeffs r ∧
      Normal q ∧ Normal r ∧ r.length < b.length := by
  have some' : b.length ≠ 0 := mt List.length_eq_zero_iff.mp nonzero
  by_cases degree : b.length ≤ a.length
  · obtain ⟨q, r, run, sum, normal, shorter, -⟩ := polyDiv_spec right some' degree
    exact ⟨q, r, run, sum, (polyDiv_normal left right run).1, normal, shorter⟩
  · have run : polyDiv a b = .ok ([], a) := by rw [polyDiv, if_neg some', if_pos (by omega)]
    refine ⟨[], a, run, ?_, (polyDiv_normal left right run).1, left, by omega⟩
    rw [ofCoeffs, zero_mul, zero_add]

omit [FieldMethods F] [InvertsNonzero F] in
/-- A shorter normal list has the smaller degree. -/
theorem eq_zero_or_natDegree_lt {r b : List F} (left : Normal r) (right : Normal b)
    (shorter : r.length < b.length) :
    ofCoeffs r = 0 ∨ (ofCoeffs r).natDegree < (ofCoeffs b).natDegree := by
  have degree := polyDegree_eq left
  have degree' := polyDegree_eq right
  rw [polyDegree] at degree degree'
  split at degree
  · next zero => exact Or.inl zero
  · right
    split at degree' <;> omega

/-- `poly_div` of normal polynomials, with the results in any two objects. -/
theorem polyDivAt_exact {quot rem : ι} (apart : quot ≠ rem) (left : Normal (polys a))
    (right : Normal (polys b)) (nonzero : ofCoeffs (polys b) ≠ 0) :
    ∃ q r, polyDivAt quot rem a b polys = .ok (Function.update (Function.update polys quot q) rem r) ∧
      ofCoeffs (polys a) = ofCoeffs q * ofCoeffs (polys b) + ofCoeffs r ∧
      (ofCoeffs r = 0 ∨ (ofCoeffs r).natDegree < (ofCoeffs (polys b)).natDegree) ∧
      Normal q ∧ Normal r := by
  have some' : polys b ≠ [] := by
    intro empty
    rw [empty] at nonzero
    exact nonzero rfl
  obtain ⟨q, r, division, sum, normal, normal', shorter⟩ := polyDiv_ok left right some'
  exact ⟨q, r, polyDivAt_eq apart right division, sum, eq_zero_or_natDegree_lt normal' right shorter,
    normal, normal'⟩

/-- A dividend and a divisor. -/
private def dividedPolys : Bool → List (ZMod 5)
  | true => [1, 2, 3]
  | false => [4, 1]

private theorem dividedPolys_normal (i : Bool) : Normal (dividedPolys i) := by
  unfold Normal
  revert i
  decide

private theorem dividedPolys_nonzero : ofCoeffs (dividedPolys false) ≠ 0 := by
  intro zero
  have lead := coeff_ofCoeffs (dividedPolys false) 1
  rw [zero, coeff_zero] at lead
  exact absurd lead (by decide)

theorem polyDivAt_exact_small : ∃ polys : Bool → List (ZMod 5), ∃ q r,
    polyDivAt true false true false polys =
      .ok (Function.update (Function.update polys true q) false r) ∧
    ofCoeffs (polys true) = ofCoeffs q * ofCoeffs (polys false) + ofCoeffs r ∧
    (ofCoeffs r = 0 ∨ (ofCoeffs r).natDegree < (ofCoeffs (polys false)).natDegree) ∧
    Normal q ∧ Normal r :=
  ⟨dividedPolys, polyDivAt_exact (by decide) (dividedPolys_normal true) (dividedPolys_normal false)
    dividedPolys_nonzero⟩

end Division

section Euclid

variable {F ι : Type} [Field F] [DecidableEq F] [FieldMethods F] [InvertsNonzero F] [DecidableEq ι]

/-- Euclid's algorithm ends with a common divisor that every common divisor divides. -/
theorem polyGcdLoop_ok (fuel : ℕ) {a b : List F} (left : Normal a) (right : Normal b)
    (nonzero : b ≠ []) (enough : b.length ≤ fuel) :
    ∃ d, polyGcdLoop fuel a b = .ok d ∧ Normal d ∧ d ≠ [] ∧
      ∀ c, c ∣ ofCoeffs d ↔ c ∣ ofCoeffs a ∧ c ∣ ofCoeffs b := by
  induction fuel generalizing a b with
  | zero => exact absurd (List.length_eq_zero_iff.mp (Nat.le_zero.mp enough)) nonzero
  | succ fuel ih =>
    obtain ⟨q, r, division, sum, -, normal, shorter⟩ := polyDiv_ok left right nonzero
    have common (c : F[X]) (divides : c ∣ ofCoeffs b) : c ∣ ofCoeffs a ↔ c ∣ ofCoeffs r := by
      rw [sum, dvd_add_right (divides.mul_left _)]
    by_cases last : r.length = 0
    · refine ⟨b, ?_, right, nonzero, fun c => ?_⟩
      · simp [polyGcdLoop, division, last, bind, Except.bind, pure, Except.pure]
      · constructor
        · intro divides
          refine ⟨(common c divides).mpr ?_, divides⟩
          rw [List.length_eq_zero_iff.mp last]
          exact dvd_zero c
        · exact And.right
    · obtain ⟨d, run, normal', nonzero', greatest⟩ :=
        ih right normal (mt List.length_eq_zero_iff.mpr last) (by omega)
      refine ⟨d, ?_, normal', nonzero', fun c => ?_⟩
      · simpa [polyGcdLoop, division, last, bind, Except.bind] using run
      · rw [greatest]
        constructor
        · rintro ⟨divides, rest⟩
          exact ⟨(common c divides).mpr rest, divides⟩
        · rintro ⟨whole, divides⟩
          exact ⟨divides, (common c divides).mp whole⟩

/-- `poly_gcd` of a polynomial and a nonzero one. -/
theorem polyGcd_ok {f g : List F} (left : Normal f) (right : Normal g) (nonzero : g ≠ []) :
    ∃ d, polyGcd f g = .ok d ∧ Normal d ∧ d ≠ [] ∧
      ∀ c, c ∣ ofCoeffs d ↔ c ∣ ofCoeffs f ∧ c ∣ ofCoeffs g :=
  polyGcdLoop_ok _ left right nonzero le_rfl

/-- `polymod_invert` of a nonzero element leaves its inverse, and `poly_gcd` a greatest common
divisor, in any objects. -/
theorem polymodInvert_polyGcd_exact :
    (∀ {n : ℕ} {poly : Fin n → F}, Irreducible (monicPoly poly) →
      ∀ (objects : ι → Polymod poly) (r e : ι), objects e ≠ 0 →
        ∃ b, polymodInvertAt r e objects = .ok (Function.update objects r b) ∧
          b.quotient * (objects e).quotient = 1) ∧
    (∀ (polys : ι → List F) (d f g : ι), Normal (polys f) → Normal (polys g) →
      ofCoeffs (polys g) ≠ 0 → ∃ h, polyGcdAt d f g polys = .ok (Function.update polys d h) ∧
        Normal h ∧ ofCoeffs h ∣ ofCoeffs (polys f) ∧ ofCoeffs h ∣ ofCoeffs (polys g) ∧
          ∀ c, c ∣ ofCoeffs (polys f) → c ∣ ofCoeffs (polys g) → c ∣ ofCoeffs h) := by
  constructor
  · intro n poly irreducible objects r e nonzero
    have := Fact.mk irreducible
    obtain ⟨b, run, inverse⟩ := polymodInvert_ok nonzero
    refine ⟨b, ?_, ?_⟩
    · have written : polymodInvertAt r e objects =
          (polymodInvert (objects e)).map (Function.update objects r) := by
        rw [polymodInvertAt, polymodInvert]
        cases polyInvert (elementPolymodToPoly (objects e)) (fieldPoly poly) <;> rfl
      rw [written, run]
      rfl
    · rw [← Polymod.quotientHom_apply, ← Polymod.quotientHom_apply, ← map_mul, mul_comm, inverse, map_one]
  · intro polys d f g left right nonzero
    have some' : polys g ≠ [] := by
      intro empty
      rw [empty] at nonzero
      exact nonzero rfl
    obtain ⟨h, run, normal, -, greatest⟩ := polyGcd_ok left right some'
    have divides := (greatest _).mp dvd_rfl
    refine ⟨h, ?_, normal, divides.1, divides.2, fun c whole divides' => (greatest c).mpr ⟨whole, divides'⟩⟩
    rw [polyGcd] at run
    simp only [polyGcdAt, run, bind, Except.bind, pure, Except.pure]

theorem polymodInvert_polyGcd_exact_small :
    (∃ b, polymodInvertAt () () (fun _ => (⟨![2, 0, 1]⟩ : Polymod (![1, 2, 0] : Fin 3 → ZMod 5))) =
        .ok (Function.update (fun _ => ⟨![2, 0, 1]⟩) () b) ∧
      b.quotient * (⟨![2, 0, 1]⟩ : Polymod (![1, 2, 0] : Fin 3 → ZMod 5)).quotient = 1) ∧
    ∃ (polys : Bool → List (ZMod 5)) (h : List (ZMod 5)),
      polyGcdAt true true false polys = .ok (Function.update polys true h) ∧ Normal h ∧
        ofCoeffs h ∣ ofCoeffs (polys true) ∧ ofCoeffs h ∣ ofCoeffs (polys false) ∧
          ∀ c, c ∣ ofCoeffs (polys true) → c ∣ ofCoeffs (polys false) → c ∣ ofCoeffs h :=
  ⟨polymodInvert_polyGcd_exact.1 (irreducible_monicPoly_three (by decide)) _ () () (by decide),
    dividedPolys, polymodInvert_polyGcd_exact.2 dividedPolys true true false (dividedPolys_normal true)
      (dividedPolys_normal false) dividedPolys_nonzero⟩

end Euclid

end Pbc.Arith
