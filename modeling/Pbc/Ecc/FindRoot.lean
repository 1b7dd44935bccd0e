import Mathlib.FieldTheory.Finite.Basic
import Pbc.Arith.Irreducible

/-!
# Roots of polynomials

`findroot` takes the greatest common divisor of the polynomial and `x^q - x`, and splits it at random
until a linear factor is left. The variable is written into the coefficient with index one, which a
polynomial of degree one does not have.
-/

open Polynomial Pbc.Algebra Pbc.Arith

namespace Pbc.Ecc

section Operations

variable {F : Type} [Field F] [Fintype F] [DecidableEq F] [FieldMethods F]

/-- The element `x` with its coefficient `((element_t *) x->data)[1]` set. -/
def findrootVariable {n : ℕ} (poly : Fin n → F) : Except PolyFault (Polymod poly) :=
  if 1 < n then .ok (polymodX poly) else .error .outOfRange

/-- One turn from `step_random` on, with a random monic linear polynomial; `q` is the exponent
`(q - 1) / 2`. The result is the new `g`, which a `goto step_random` leaves as it is. -/
def splitOnce (q : ℕ) (c : F) (g : List F) : Except PolyFault (List F) := do
  let r := [c, 1]
  let fac ← (polyGcd r g).mapError .exit
  if polyDegree fac > 0 then (polyMakeMonic fac).mapError .exit
  else
    let p := elementPolyToPolymodTruncate (lowerCoeffs g) r
    let p ← (elementPowMpz p p q).mapError .exit
    let r := elementPolymodToPoly p
    let r := polyAdd r [1]
    let fac ← (polyGcd r g).mapError .exit
    let n := polyDegree fac
    if n > 0 ∧ n < polyDegree g then (polyMakeMonic fac).mapError .exit else return g

/-- The loop of `findroot`, over the random numbers that are left; without a result they do not
suffice. -/
def findrootLoop (q : ℕ) : List F → List F → Except PolyFault (Option (List F))
  | [], g => if polyDegree g = 1 then .ok (some g) else .ok none
  | c :: draws, g =>
      if polyDegree g = 1 then .ok (some g)
      else do
        let g ← splitOnce q c g
        findrootLoop q draws g

/-- `findroot`, with its random numbers: the value that is returned, and the element `root`. -/
def findroot (root : F) (poly : List F) (draws : List F) : Except PolyFault (Option (ℤ × F)) := do
  let q := Fintype.card F
  let x ← findrootVariable (lowerCoeffs poly)
  let p ← (elementPowMpz 0 x q).mapError .exit
  let p := p - x
  let g := elementPolymodToPoly p
  let g ← (polyGcd g poly).mapError .exit
  let g ← (polyMakeMonic g).mapError .exit
  if polyDegree g = 0 then return some (-1, root)
  let q := (q - 1) / 2
  match ← findrootLoop q draws g with
  | none => return none
  | some g => return some (0, -(← polyCoeff g 0))

/-- What `findroot` is to do: it reads and writes only coefficients that exist, it tells whether
there is a root, and sets it, and it ends at the latest when it has drawn every number. -/
structure FindrootRight (poly : List F) : Prop where
  accesses : ∀ root draws, ∃ outcome, findroot root poly draws = .ok outcome
  status : ∀ root draws status root', findroot root poly draws = .ok (some (status, root')) →
    (status ≠ 0 ↔ ∀ a, (ofCoeffs poly).eval a ≠ 0) ∧
      (status = 0 → (ofCoeffs poly).eval root' = 0)
  returns : ∀ root draws, (∀ c, c ∈ draws) → findroot root poly draws ≠ .ok none

end Operations

section Monic

variable {F : Type} [Field F] [DecidableEq F] [FieldMethods F] [InvertsNonzero F] {f g : List F}

omit [DecidableEq F] [FieldMethods F] [InvertsNonzero F] in
theorem ofCoeffs_map_mul (e0 : F) (g : List F) : ofCoeffs (g.map (· * e0)) = ofCoeffs g * C e0 := by
  ext i
  rw [coeff_mul_C, coeff_ofCoeffs, coeff_ofCoeffs]
  rcases Nat.lt_or_ge i g.length with inside | outside
  · rw [List.getD_eq_getElem _ _ (by rwa [List.length_map]), List.getElem_map,
      List.getD_eq_getElem _ _ inside]
  · rw [List.getD_eq_default _ _ (by rwa [List.length_map]), List.getD_eq_default _ _ outside, zero_mul]

/-- `poly_make_monic` of a nonzero polynomial. -/
theorem polyMakeMonic_ok (normal : Normal g) (nonempty : g ≠ []) : ∃ f, polyMakeMonic g = .ok f ∧
    f.getLast? = some 1 ∧ f.length = g.length ∧ ∀ c, ofCoeffs f ∣ c ↔ ofCoeffs g ∣ c := by
  obtain ⟨front, lead, rfl⟩ : ∃ front lead, g = front ++ [lead] :=
    ⟨g.dropLast, g.getLast nonempty, (List.dropLast_append_getLast nonempty).symm⟩
  have some : (front ++ [lead]).length = front.length + 1 := List.length_append
  have nonzero : lead ≠ 0 := (Pbc.Arith.normal_iff _).mp normal lead List.getLast?_concat
  have last : (front ++ [lead]).getD ((front ++ [lead]).length - 1) 0 = lead := by
    rw [some, Nat.add_sub_cancel, List.getD_append_right _ _ _ _ (Nat.le_refl _), Nat.sub_self,
      List.getD_cons_zero]
  refine ⟨front.map (· * lead⁻¹) ++ [1], ?_, List.getLast?_concat, ?_, ?_⟩
  · rw [polyMakeMonic, if_neg (by omega), last, InvertsNonzero.invert_ok nonzero, some, Nat.add_sub_cancel,
      List.take_left]
    rfl
  · rw [some, List.length_append, List.length_map, List.length_singleton]
  · intro c
    have scaled : front.map (· * lead⁻¹) ++ [1] = (front ++ [lead]).map (· * lead⁻¹) := by
      rw [List.map_append, List.map_singleton, mul_inv_cancel₀ nonzero]
    have unit : IsUnit (C lead⁻¹) := isUnit_C.mpr (inv_ne_zero nonzero).isUnit
    rw [scaled, ofCoeffs_map_mul]
    exact unit.mul_right_dvd

end Monic

section Roots

variable {F : Type} [Field F] [Fintype F] {f g : F[X]}

/-- The divisors of `x^q - x` have roots. -/
theorem exists_root_of_dvd (divides : g ∣ X ^ Fintype.card F - X) (degree : g.natDegree ≠ 0) :
    ∃ a, g.eval a = 0 := by
  have large : 1 < Fintype.card F := Fintype.one_lt_card
  have splits : Splits (X ^ Fintype.card F - X : F[X]) := by
    rw [splits_iff_card_roots, FiniteField.roots_X_pow_card_sub_X,
      FiniteField.X_pow_card_sub_X_natDegree_eq F large]
    rfl
  have splits' := splits.of_dvd (FiniteField.X_pow_card_sub_X_ne_zero F large) divides
  apply splits'.exists_eval_eq_zero
  intro zero
  exact degree (natDegree_eq_zero_iff_degree_le_zero.mpr zero.le)

/-- The linear factor of a root divides `x^q - x`. -/
theorem X_sub_C_dvd_frobenius (a : F) : X - C a ∣ X ^ Fintype.card F - X := by
  rw [dvd_iff_isRoot, IsRoot, eval_sub, eval_pow, eval_X, FiniteField.pow_card, sub_self]

omit [Fintype F] in
theorem X_add_C_dvd_iff {c : F} : X + C c ∣ g ↔ g.eval (-c) = 0 := by
  have shape : (X : F[X]) + C c = X - C (-c) := by rw [C_neg, sub_neg_eq_add]
  rw [shape, dvd_iff_isRoot, IsRoot]

end Roots

section Splitting

variable {F : Type} [Field F] [Fintype F] [DecidableEq F] [FieldMethods F] [InvertsNonzero F]
  {f : F[X]} {g : List F}

/-- The monic polynomials that occur as `g`: factors with roots only. -/
structure RootFactor (f : F[X]) (g : List F) : Prop where
  monic : g.getLast? = some 1
  long : 2 ≤ g.length
  splits : ofCoeffs g ∣ X ^ Fintype.card F - X
  divides : ofCoeffs g ∣ f

omit [Fintype F] [FieldMethods F] [InvertsNonzero F] in
theorem polyDegree_ofCoeffs {d : List F} (normal : Normal d) (nonempty : d ≠ []) :
    polyDegree d = (ofCoeffs d).natDegree ∧ ofCoeffs d ≠ 0 := by
  have nonzero : ofCoeffs d ≠ 0 := by
    intro zero
    have empty := (polyIs0_iff normal).mpr zero
    exact nonempty (List.length_eq_zero_iff.mp (decide_eq_true_iff.mp empty))
  have degree := polyDegree_eq normal
  rw [if_neg nonzero] at degree
  exact ⟨degree, nonzero⟩

omit [FieldMethods F] [InvertsNonzero F] in
/-- The degree of the factor as `poly_degree` gives it. -/
theorem RootFactor.degree (factor : RootFactor f g) :
    polyDegree g = (ofCoeffs g).natDegree ∧ (ofCoeffs g).natDegree = g.length - 1 := by
  obtain ⟨normal, nonzero, degree⟩ := monic_natDegree factor.monic
  refine ⟨?_, degree⟩
  have long := factor.long
  rw [polyDegree, degree]
  omega

omit [FieldMethods F] [InvertsNonzero F] in
theorem RootFactor.exists_root (factor : RootFactor f g) : ∃ a, (ofCoeffs g).eval a = 0 := by
  have long := factor.long
  refine exists_root_of_dvd factor.splits ?_
  rw [factor.degree.2]
  omega

/-- A common divisor of positive degree becomes the new factor. -/
theorem RootFactor.of_divisor (factor : RootFactor f g) {d : List F} (normal : Normal d)
    (nonempty : d ≠ []) (divides : ofCoeffs d ∣ ofCoeffs g) (degree : polyDegree d > 0) :
    ∃ g', polyMakeMonic d = .ok g' ∧ RootFactor f g' ∧ g'.length = d.length ∧
      ofCoeffs g' ∣ ofCoeffs g := by
  obtain ⟨g', run, monic, length, associated⟩ := polyMakeMonic_ok normal nonempty
  have divides' : ofCoeffs g' ∣ ofCoeffs g := (associated _).mpr divides
  have long : 2 ≤ g'.length := by
    rw [polyDegree] at degree
    omega
  exact ⟨g', run, ⟨monic, long, divides'.trans factor.splits, divides'.trans factor.divides⟩, length, divides'⟩

omit [Fintype F] [FieldMethods F] [InvertsNonzero F] in
theorem ofCoeffs_linear (c : F) : ofCoeffs [c, 1] = X + C c ∧ Normal [c, (1 : F)] := by
  constructor
  · simp only [ofCoeffs]
    rw [C_1]
    ring
  · rw [Pbc.Arith.normal_iff]
    rintro a ⟨⟩
    exact one_ne_zero

/-- One turn leaves a factor, and one of degree one if it meets a root. -/
theorem splitOnce_ok (factor : RootFactor f g) (q : ℕ) (c : F) : ∃ g', splitOnce q c g = .ok g' ∧
    RootFactor f g' ∧ ofCoeffs g' ∣ ofCoeffs g ∧
      ((ofCoeffs g).eval (-c) = 0 → polyDegree g' = 1) := by
  obtain ⟨normal, nonzero, -⟩ := monic_natDegree factor.monic
  have nonempty : g ≠ [] := by
    rintro rfl
    exact nonzero rfl
  obtain ⟨linear, normal'⟩ := ofCoeffs_linear c
  obtain ⟨fac, gcd, normalFac, nonemptyFac, greatest⟩ := polyGcd_ok normal' normal nonempty
  obtain ⟨degree, nonzeroFac⟩ := polyDegree_ofCoeffs normalFac nonemptyFac
  have divides := (greatest _).mp dvd_rfl
  rw [splitOnce]
  simp only [gcd, Except.mapError, bind, Except.bind]
  by_cases some : polyDegree fac > 0
  · rw [if_pos some]
    obtain ⟨g', run, factor', length, divides'⟩ := factor.of_divisor normalFac nonemptyFac divides.2 some
    refine ⟨g', by rw [run], factor', divides', ?_⟩
    intro _
    have small : (ofCoeffs fac).natDegree ≤ 1 := by
      have bound := natDegree_le_of_dvd divides.1 (by rw [linear]; exact X_add_C_ne_zero c)
      rwa [linear, natDegree_X_add_C] at bound
    have degree' : polyDegree g' = polyDegree fac := by rw [polyDegree, polyDegree, length]
    omega
  · have rootless : (ofCoeffs g).eval (-c) ≠ 0 := by
      intro root
      have common : X + C c ∣ ofCoeffs fac :=
        (greatest _).mpr ⟨by rw [linear], X_add_C_dvd_iff.mpr root⟩
      have bound := natDegree_le_of_dvd common nonzeroFac
      rw [natDegree_X_add_C] at bound
      omega
    obtain ⟨r, power⟩ : ∃ r, r = polyAdd (elementPolymodToPoly
        (elementPolyToPolymodTruncate (lowerCoeffs g) [c, 1] ^ q)) [(1 : F)] := ⟨_, rfl⟩
    have normalR : Normal r := power ▸ normal_removeLeadingZeroes _
    obtain ⟨fac', gcd', normalFac', nonemptyFac', greatest'⟩ := polyGcd_ok normalR normal nonempty
    have divides' := ((greatest' _).mp dvd_rfl).2
    rw [if_neg some, elementPowMpz_ok]
    simp only [← power, gcd']
    split
    · rename_i proper
      obtain ⟨g', run, factor', -, divides''⟩ :=
        factor.of_divisor normalFac' nonemptyFac' divides' proper.1
      exact ⟨g', by rw [run], factor', divides'', fun root => absurd root rootless⟩
    · exact ⟨g, rfl, factor, dvd_rfl, fun root => absurd root rootless⟩

/-- The loop never leaves the coefficients; it ends with a linear factor, unless the negative of some
root is not among the random numbers. -/
theorem findrootLoop_ok (factor : RootFactor f g) (q : ℕ) (draws : List F) :
    (∃ g', findrootLoop q draws g = .ok (some g') ∧ RootFactor f g' ∧ polyDegree g' = 1) ∨
      (findrootLoop q draws g = .ok none ∧ ∃ a, (ofCoeffs g).eval a = 0 ∧ -a ∉ draws) := by
  induction draws generalizing g with
  | nil =>
    by_cases last : polyDegree g = 1
    · exact Or.inl ⟨g, by rw [findrootLoop, if_pos last], factor, last⟩
    · obtain ⟨a, root⟩ := factor.exists_root
      exact Or.inr ⟨by rw [findrootLoop, if_neg last], a, root, List.not_mem_nil⟩
  | cons c draws ih =>
    by_cases last : polyDegree g = 1
    · exact Or.inl ⟨g, by rw [findrootLoop, if_pos last], factor, last⟩
    · obtain ⟨g', run, factor', divides, met⟩ := splitOnce_ok factor q c
      have step : findrootLoop q (c :: draws) g = findrootLoop q draws g' := by
        rw [findrootLoop, if_neg last, run]
        rfl
      rw [step]
      rcases ih factor' with found | ⟨running, a, root, missing⟩
      · exact Or.inl found
      · refine Or.inr ⟨running, a, eval_eq_zero_of_dvd_of_eval_eq_zero divides root, ?_⟩
        rw [List.mem_cons, not_or]
        refine ⟨?_, missing⟩
        rintro rfl
        have root' := eval_eq_zero_of_dvd_of_eval_eq_zero divides root
        rw [← neg_neg a] at root'
        have ended := met root'
        have loop : findrootLoop q draws g' = .ok (some g') := by
          cases draws with
          | nil => rw [findrootLoop, if_pos ended]
          | cons _ _ => rw [findrootLoop, if_pos ended]
        rw [loop] at running
        cases running

end Splitting

section Result

variable {F : Type} [Field F] [Fintype F] [DecidableEq F] [FieldMethods F] [InvertsNonzero F]
  {poly : List F}

/-- The greatest common divisor with `x^q - x`. -/
theorem findrootGcd_ok (monic : poly.getLast? = some 1) (two : 2 ≤ poly.length - 1) :
    ∃ d g, polyGcd (elementPolymodToPoly (polymodX (lowerCoeffs poly) ^ Fintype.card F -
        polymodX (lowerCoeffs poly))) poly = .ok d ∧ polyMakeMonic d = .ok g ∧
      g.getLast? = some 1 ∧
        ∀ c, c ∣ ofCoeffs g ↔ c ∣ X ^ Fintype.card F - X ∧ c ∣ ofCoeffs poly := by
  obtain ⟨normal, nonzero, -⟩ := monic_natDegree monic
  have nonempty : poly ≠ [] := by
    rintro rfl
    exact nonzero rfl
  have normal' : Normal (elementPolymodToPoly (polymodX (lowerCoeffs poly) ^ Fintype.card F -
      polymodX (lowerCoeffs poly))) := normal_removeLeadingZeroes _
  obtain ⟨d, gcd, normalD, nonemptyD, greatest⟩ := polyGcd_ok normal' normal nonempty
  obtain ⟨g, run, monic', -, associated⟩ := polyMakeMonic_ok normalD nonemptyD
  refine ⟨d, g, gcd, run, monic', ?_⟩
  have forward : ofCoeffs g ∣ ofCoeffs d := (associated _).mpr dvd_rfl
  have backward : ofCoeffs d ∣ ofCoeffs g := (associated _).mp dvd_rfl
  have same := dvd_coeffPoly_power (lowerCoeffs poly) two (Fintype.card F)
  rw [monicPoly_lowerCoeffs monic] at same
  intro c
  have common : c ∣ ofCoeffs g ↔ c ∣ ofCoeffs d :=
    ⟨fun divides => divides.trans forward, fun divides => divides.trans backward⟩
  rw [common, greatest, ofCoeffs_polymodToPoly]
  constructor
  · rintro ⟨power, divides⟩
    exact ⟨(dvd_iff_dvd_of_dvd_sub (divides.trans same)).mp power, divides⟩
  · rintro ⟨power, divides⟩
    exact ⟨(dvd_iff_dvd_of_dvd_sub (divides.trans same)).mpr power, divides⟩

omit [FieldMethods F] [InvertsNonzero F] in
/-- A linear factor gives its root. -/
theorem RootFactor.root {f : F[X]} {g : List F} (factor : RootFactor f g) (linear : polyDegree g = 1) :
    polyCoeff g 0 = .ok (g.getD 0 0) ∧ f.eval (-g.getD 0 0) = 0 := by
  rw [polyDegree] at linear
  obtain ⟨a, rfl⟩ : ∃ a, g = [a, 1] := by
    obtain ⟨a, b, rfl⟩ := List.length_eq_two.mp (by omega : g.length = 2)
    have last : b = 1 := Option.some.inj factor.monic
    exact ⟨a, by rw [last]⟩
  refine ⟨polyCoeff_ok (Nat.zero_lt_succ _), ?_⟩
  have divides := factor.divides
  rw [(ofCoeffs_linear a).1, X_add_C_dvd_iff] at divides
  exact divides

/-- How `findroot` ends for a polynomial of degree two or more. -/
theorem findroot_cases (monic : poly.getLast? = some 1) (two : 2 ≤ poly.length - 1) (root : F)
    (draws : List F) :
    (findroot root poly draws = .ok (some (-1, root)) ∧ ∀ a, (ofCoeffs poly).eval a ≠ 0) ∨
      (∃ root', findroot root poly draws = .ok (some (0, root')) ∧ (ofCoeffs poly).eval root' = 0) ∨
      (findroot root poly draws = .ok none ∧ ∃ a, (ofCoeffs poly).eval a = 0 ∧ a ∉ draws.map (- ·)) := by
  obtain ⟨d, g, gcd, make, monic', greatest⟩ := findrootGcd_ok monic two
  obtain ⟨-, nonzero, degree⟩ := monic_natDegree monic'
  have coefficient : findrootVariable (lowerCoeffs poly) = .ok (polymodX (lowerCoeffs poly)) := if_pos two
  have length : g.length ≠ 0 := by
    intro empty
    rw [List.length_eq_zero_iff] at empty
    subst empty
    exact nonzero rfl
  by_cases constant : polyDegree g = 0
  · left
    constructor
    · simp only [findroot, coefficient, bind, Except.bind, elementPowMpz_ok, Except.mapError, gcd, make,
        if_pos constant, pure, Except.pure]
    · intro a zero
      have common : X - C a ∣ ofCoeffs g :=
        (greatest _).mpr ⟨X_sub_C_dvd_frobenius a, dvd_iff_isRoot.mpr zero⟩
      have bound := natDegree_le_of_dvd common nonzero
      rw [natDegree_X_sub_C] at bound
      rw [polyDegree] at constant
      omega
  · right
    have divides := (greatest _).mp dvd_rfl
    have long : 2 ≤ g.length := by
      rw [polyDegree] at constant
      omega
    have factor : RootFactor (ofCoeffs poly) g := ⟨monic', long, divides.1, divides.2⟩
    rcases findrootLoop_ok factor ((Fintype.card F - 1) / 2) draws with
      ⟨g', loop, factor', linear⟩ | ⟨loop, a, zero, missing⟩
    · left
      obtain ⟨access, zero⟩ := factor'.root linear
      refine ⟨-g'.getD 0 0, ?_, zero⟩
      simp only [findroot, coefficient, bind, Except.bind, elementPowMpz_ok, Except.mapError, gcd, make,
        if_neg constant, loop, access, pure, Except.pure]
    · right
      constructor
      · simp only [findroot, coefficient, bind, Except.bind, elementPowMpz_ok, Except.mapError, gcd, make,
          if_neg constant, loop, pure, Except.pure]
      · refine ⟨a, eval_eq_zero_of_dvd_of_eval_eq_zero divides.2 zero, ?_⟩
        intro member
        obtain ⟨c, drawn, same⟩ := List.mem_map.mp member
        rw [← same, neg_neg] at missing
        exact missing drawn

/-- `findroot` does what it is to do exactly for degrees from two on. -/
theorem findroot_iff (monic : poly.getLast? = some 1) (positive : 2 ≤ poly.length) :
    FindrootRight poly ↔ poly.length - 1 ≠ 1 := by
  constructor
  · intro right degree
    obtain ⟨outcome, run⟩ := right.accesses 0 []
    have failed : findroot 0 poly [] = .error .outOfRange := by
      rw [findroot, findrootVariable, if_neg (by omega)]
      rfl
    rw [failed] at run
    cases run
  · intro degree
    have two : 2 ≤ poly.length - 1 := by omega
    constructor
    · intro root draws
      rcases findroot_cases monic two root draws with ⟨run, -⟩ | ⟨root', run, -⟩ | ⟨run, -⟩
      · exact ⟨_, run⟩
      · exact ⟨_, run⟩
      · exact ⟨_, run⟩
    · intro root draws status root' returned
      rcases findroot_cases monic two root draws with ⟨run, rootless⟩ | ⟨found, run, zero⟩ | ⟨run, -⟩
      · rw [run] at returned
        cases returned
        exact ⟨iff_of_true (by decide) rootless, fun zero => absurd zero (by decide)⟩
      · rw [run] at returned
        cases returned
        exact ⟨iff_of_false (fun same => same rfl) fun rootless => rootless _ zero, fun _ => zero⟩
      · rw [run] at returned
        cases returned
    · intro root draws all running
      rcases findroot_cases monic two root draws with ⟨run, -⟩ | ⟨root', run, -⟩ | ⟨run, a, -, missing⟩
      · rw [run] at running
        cases running
      · rw [run] at running
        cases running
      · exact missing (List.mem_map.mpr ⟨-a, all (-a), neg_neg a⟩)

/-- Over `F_3` the polynomial `x^2 - 1` has roots. -/
theorem findroot_three : FindrootRight [(2 : ZMod 3), 0, 1] :=
  (findroot_iff rfl (by decide)).mpr (by decide)

/-- The coefficient with index one of the polynomial `x` does not exist. -/
theorem findroot_linear : ¬FindrootRight [(0 : ZMod 3), 1] := by
  intro right
  obtain ⟨outcome, run⟩ := right.accesses 0 []
  cases run

end Result

end Pbc.Ecc
