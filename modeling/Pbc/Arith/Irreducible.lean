import Pbc.Algebra.Rabin
import Pbc.Arith.FactorLists
import Pbc.Arith.PolyEuclid
import Pbc.Arith.PolymodSquare

/-!
# The irreducibility test

`poly_is_irred` is Rabin's test. Powers of the variable are taken modulo the polynomial, in a ring
that is a field only if the answer is yes, and compared with the variable by a greatest common
divisor for every prime factor of the degree.
-/

open Polynomial Pbc.Algebra Pbc.Gmp

namespace Pbc.Arith

section Operations

variable {F : Type} [Field F] [Fintype F] [DecidableEq F] [FieldMethods F]

/-- The coefficients of `f` that `field_init_polymod` keeps, below the leading one. -/
def lowerCoeffs (f : List F) : Fin (f.length - 1) → F := fun i => f.getD i 0

/-- The element `x` of `poly_is_irred_degfac`, whose coefficient with index one is set. -/
def polymodX {n : ℕ} (poly : Fin n → F) : Polymod poly := ⟨fun i => if (i : ℕ) = 1 then 1 else 0⟩

/-- The loop of `poly_is_irred_degfac`, over the factors that are left; the result is false where it
jumps to the end. -/
def polyIsIrredLoop (f : List F) : List ℤ → Except Exit Bool
  | [] => .ok true
  | item :: factor => do
      let x := polymodX (lowerCoeffs f)
      let z := polyDegree f / item
      let z := Fintype.card F ^ z.toNat
      let xpow ← elementPowMpz 0 x z
      let xpow := xpow - x
      if polymodIs0 xpow then return false
      let g := elementPolymodToPoly xpow
      let g ← polyGcd f g
      if polyDegree g ≠ 0 then return false
      polyIsIrredLoop f factor

/-- `poly_is_irred_degfac`. -/
def polyIsIrredDegfac (f : List F) (factor : List ℤ) : Except Exit Bool := do
  let passed ← polyIsIrredLoop f factor
  if !passed then return false
  let x := polymodX (lowerCoeffs f)
  let z := Fintype.card F ^ (polyDegree f).toNat
  let xpow ← elementPowMpz 0 x z
  let xpow := xpow - x
  return polymodIs0 xpow

/-- `poly_is_irred`. Without a result the trial division does not end. -/
def polyIsIrred (f : List F) : Option (Except Exit Bool) :=
  if polyDegree f ≤ 1 then some (.ok true)
  else (trialDivideLists (polyDegree f) none).map fun lists => polyIsIrredDegfac f lists.1

end Operations

/-- Without a limit the listed parts are prime. -/
theorem Factors.prime_of_none {n : ℕ} {fac : List (ℕ × ℕ)} (factors : Factors none n fac) :
    ∀ f ∈ fac, f.1.Prime := by
  induction factors with
  | one => exact fun f member => absurd member List.not_mem_nil
  | whole more whole =>
    intro f member
    rw [List.mem_singleton.mp member]
    rcases whole with prime | rough
    · exact prime
    · obtain ⟨q, prime, divides⟩ := Nat.exists_prime_and_dvd more.ne'
      exact absurd (rough q prime divides) Bool.false_ne_true
  | cons prime _ _ _ _ ih =>
    intro f member
    rcases List.mem_cons.mp member with rfl | member
    · exact prime
    · exact ih f member

/-- Without a limit the listed parts are the prime factors. -/
theorem Factors.mem_iff {n : ℕ} {fac : List (ℕ × ℕ)} (factors : Factors none n fac) (p : ℕ) :
    p ∈ fac.map Prod.fst ↔ p.Prime ∧ p ∣ n := by
  constructor
  · intro member
    obtain ⟨f, listed, rfl⟩ := List.mem_map.mp member
    refine ⟨factors.prime_of_none f listed, ?_⟩
    exact (dvd_pow_self f.1 (factors.more f listed).2.ne').trans (factors.dvd listed)
  · rintro ⟨prime, divides⟩
    obtain ⟨f, member, same, -⟩ :=
      factors.mem_of_prime prime Bool.false_ne_true one_ne_zero (by rwa [pow_one])
    exact List.mem_map.mpr ⟨f, member, same⟩

section Values

variable {F : Type} [Field F] {f : List F}

/-- The stored polynomial of a monic list. -/
theorem monicPoly_lowerCoeffs (monic : f.getLast? = some 1) :
    monicPoly (lowerCoeffs f) = ofCoeffs f := by
  obtain ⟨front, rfl⟩ := List.getLast?_eq_some_iff.mp monic
  rw [← ofCoeffs_fieldPoly]
  apply ofCoeffs_eq_of_getD
  intro i
  have size : (List.ofFn (lowerCoeffs (front ++ [1]))).length = front.length := by
    rw [List.length_ofFn, List.length_append, List.length_singleton, Nat.add_sub_cancel]
  by_cases inside : i < front.length
  · rw [fieldPoly, List.getD_append _ _ _ _ (by rwa [size]), List.getD_eq_getElem _ _ (by rwa [size]),
      List.getElem_ofFn]
    rfl
  · rw [fieldPoly, List.getD_append_right _ _ _ _ (by rw [size]; omega), size,
      List.getD_append_right _ _ _ _ (by omega)]

theorem coeff_polymodX {n : ℕ} (poly : Fin n → F) (i : Fin n) :
    (polymodX poly).coeff i = if (i : ℕ) = 1 then 1 else 0 := rfl

theorem quotient_polymodX {n : ℕ} (poly : Fin n → F) (two : 2 ≤ n) :
    (polymodX poly).quotient = root poly := by
  have others : ∀ i : Fin n, i ∈ Finset.univ → i ≠ ⟨1, two⟩ →
      AdjoinRoot.of (monicPoly poly) ((polymodX poly).coeff i) * root poly ^ (i : ℕ) = 0 := by
    intro i _ other
    have apart : ¬(i : ℕ) = 1 := fun same => other (Fin.ext same)
    rw [coeff_polymodX, if_neg apart, map_zero, zero_mul]
  rw [Polymod.quotient, value,
    Finset.sum_eq_single ⟨1, two⟩ others (fun none => absurd (Finset.mem_univ _) none),
    coeff_polymodX, if_pos rfl, map_one, one_mul, pow_one]

/-- A power of the variable less the variable, as polynomials. -/
theorem dvd_coeffPoly_power {n : ℕ} (poly : Fin n → F) (two : 2 ≤ n) (k : ℕ) :
    monicPoly poly ∣ coeffPoly (polymodX poly ^ k - polymodX poly).coeff - (X ^ k - X) := by
  rw [← AdjoinRoot.mk_eq_mk, ← value_eq_mk, map_sub, map_pow, AdjoinRoot.mk_X]
  have power : (polymodX poly ^ k - polymodX poly).quotient = root poly ^ k - root poly := by
    rw [← Polymod.quotientHom_apply, map_sub, map_pow, Polymod.quotientHom_apply,
      quotient_polymodX poly two]
  exact power

/-- Coprimality is decided modulo the polynomial. -/
theorem isCoprime_congr {m a b : F[X]} (same : m ∣ a - b) : IsCoprime m a ↔ IsCoprime m b := by
  obtain ⟨c, difference⟩ := same
  rw [← IsCoprime.add_mul_left_right_iff (x := m) (y := b) (z := c), ← difference, add_sub_cancel]

/-- A greatest common divisor of degree zero. -/
theorem polyDegree_eq_zero_iff [DecidableEq F] {d : List F} {a b : F[X]} (normal : Normal d)
    (greatest : ∀ c, c ∣ ofCoeffs d ↔ c ∣ a ∧ c ∣ b) (nonzero : ofCoeffs d ≠ 0) :
    polyDegree d = 0 ↔ IsCoprime a b := by
  classical
  have divides := (greatest _).mp dvd_rfl
  have unit : IsUnit (ofCoeffs d) ↔ IsCoprime a b := by
    constructor
    · intro unit
      rw [← EuclideanDomain.gcd_isUnit_iff]
      refine isUnit_of_dvd_unit ((greatest _).mpr ?_) unit
      exact ⟨EuclideanDomain.gcd_dvd_left a b, EuclideanDomain.gcd_dvd_right a b⟩
    · intro coprime
      exact coprime.isUnit_of_dvd' divides.1 divides.2
  rw [← unit, polyDegree_eq normal, if_neg nonzero, Nat.cast_eq_zero,
    isUnit_iff_degree_eq_zero, degree_eq_natDegree nonzero, Nat.cast_eq_zero]

end Values

section Test

variable {F : Type} [Field F] [Fintype F] [DecidableEq F] [FieldMethods F] {f : List F}

omit [Fintype F] [FieldMethods F] in
/-- A monic list is normal, and its length gives the degree. -/
theorem monic_natDegree (monic : f.getLast? = some 1) :
    Normal f ∧ ofCoeffs f ≠ 0 ∧ (ofCoeffs f).natDegree = f.length - 1 := by
  have normal : Normal f := by
    rw [normal_iff]
    intro a last
    rw [monic, Option.some.injEq] at last
    exact last ▸ one_ne_zero
  have nonzero : ofCoeffs f ≠ 0 := by
    rw [← monicPoly_lowerCoeffs monic]
    exact (monicPoly_monic _).ne_zero
  have degree := polyDegree_eq normal
  rw [if_neg nonzero, polyDegree] at degree
  exact ⟨normal, nonzero, by omega⟩

omit [Fintype F] [FieldMethods F] in
/-- The element that is compared with zero vanishes when the polynomial divides. -/
theorem polymodIs0_power_iff (monic : f.getLast? = some 1) (two : 2 ≤ f.length - 1) (k : ℕ) :
    polymodIs0 (polymodX (lowerCoeffs f) ^ k - polymodX (lowerCoeffs f)) = true ↔
      ofCoeffs f ∣ X ^ k - X := by
  have same := dvd_coeffPoly_power (lowerCoeffs f) two k
  rw [polymodIs0_iff, ← monicPoly_lowerCoeffs monic]
  constructor
  · intro zero
    have none : coeffPoly (0 : Polymod (lowerCoeffs f)).coeff = 0 := by
      simp only [coeffPoly, Polymod.coeff_zero, C_0, zero_mul, Finset.sum_const_zero]
    rwa [zero, none, zero_sub, dvd_neg] at same
  · intro divides
    apply Polymod.quotient_injective
    rw [Polymod.quotient, value_eq_mk, ← Polymod.quotientHom_apply 0, map_zero, AdjoinRoot.mk_eq_zero]
    exact (dvd_sub_left divides).mp same

variable [InvertsNonzero F]

/-- The loop tests the greatest common divisors of the listed primes. -/
theorem polyIsIrredLoop_ok (monic : f.getLast? = some 1) (two : 2 ≤ f.length - 1) (primes : List ℕ) :
    ∃ res, polyIsIrredLoop f (primes.map (↑)) = .ok res ∧ (res = true ↔ ∀ p ∈ primes,
      IsCoprime (ofCoeffs f) (X ^ Fintype.card F ^ ((f.length - 1) / p) - X)) := by
  obtain ⟨normal, nonzero, degree⟩ := monic_natDegree monic
  induction primes with
  | nil => exact ⟨true, rfl, iff_of_true rfl fun p member => absurd member List.not_mem_nil⟩
  | cons p primes ih =>
    obtain ⟨res, run, answer⟩ := ih
    have exponent : (polyDegree f / (p : ℤ)).toNat = (f.length - 1) / p := by
      have length : polyDegree f = (f.length - 1 : ℕ) := by
        rw [polyDegree]
        omega
      rw [length, ← Int.natCast_div, Int.toNat_natCast]
    rw [List.map_cons, polyIsIrredLoop, List.forall_mem_cons]
    simp only [exponent, elementPowMpz_ok, bind, Except.bind]
    set k := Fintype.card F ^ ((f.length - 1) / p)
    set xpow := polymodX (lowerCoeffs f) ^ k - polymodX (lowerCoeffs f) with power
    by_cases zero : polymodIs0 xpow = true
    · refine ⟨false, by rw [if_pos zero]; rfl, iff_of_false Bool.false_ne_true ?_⟩
      rintro ⟨coprime, -⟩
      have divides := (polymodIs0_power_iff monic two k).mp zero
      have unit := natDegree_eq_zero_of_isUnit (coprime.isUnit_of_dvd' dvd_rfl divides)
      omega
    · rw [if_neg zero]
      have nonempty : elementPolymodToPoly xpow ≠ [] := by
        intro empty
        refine zero ((polymodIs0_iff xpow).mpr ?_)
        exact (polymodToPoly_length_eq_zero_iff xpow).mp (congrArg List.length empty)
      have read : Normal (elementPolymodToPoly xpow) := normal_removeLeadingZeroes _
      obtain ⟨g, gcd, normal', nonempty', greatest⟩ := polyGcd_ok normal read nonempty
      have nonzero' : ofCoeffs g ≠ 0 := fun none =>
        nonempty' (List.length_eq_zero_iff.mp (decide_eq_true_iff.mp ((polyIs0_iff normal').mpr none)))
      have coprime : polyDegree g = 0 ↔ IsCoprime (ofCoeffs f) (X ^ k - X) := by
        rw [polyDegree_eq_zero_iff normal' greatest nonzero', ofCoeffs_polymodToPoly,
          ← monicPoly_lowerCoeffs monic]
        exact isCoprime_congr (dvd_coeffPoly_power (lowerCoeffs f) two k)
      simp only [gcd]
      by_cases unit : polyDegree g = 0
      · refine ⟨res, ?_, ?_⟩
        · rw [if_neg (not_not.mpr unit)]
          exact run
        · rw [answer]
          exact (and_iff_right (coprime.mp unit)).symm
      · refine ⟨false, by rw [if_pos unit]; rfl, iff_of_false Bool.false_ne_true ?_⟩
        exact fun both => unit (coprime.mpr both.1)

/-- `poly_is_irred` is right about every monic polynomial of positive degree. -/
theorem polyIsIrred_exact (monic : f.getLast? = some 1) (positive : 2 ≤ f.length) :
    ∃ res, polyIsIrred f = some (.ok res) ∧ (res = true ↔ Irreducible (ofCoeffs f)) := by
  obtain ⟨normal, nonzero, degree⟩ := monic_natDegree monic
  by_cases small : polyDegree f ≤ 1
  · refine ⟨true, by rw [polyIsIrred, if_pos small], iff_of_true rfl ?_⟩
    rw [polyDegree] at small
    exact irreducible_of_degree_eq_one (by rw [degree_eq_natDegree nonzero, degree]; norm_cast; omega)
  · have two : 2 ≤ f.length - 1 := by
      rw [polyDegree] at small
      omega
    have length : polyDegree f = (f.length - 1 : ℕ) := by
      rw [polyDegree]
      omega
    obtain ⟨fac, division, factors⟩ := trialDivide_factors none (show 0 < f.length - 1 by omega)
    obtain ⟨res, run, answer⟩ := polyIsIrredLoop_ok monic two (fac.map Prod.fst)
    have lists : trialDivideLists (polyDegree f) none =
        some ((fac.map Prod.fst).map (↑), fac.map fun g => UInt32.ofNat g.2) := by
      rw [trialDivideLists, length, division, Option.map_some, List.map_map, List.map_map, List.map_map]
      rfl
    have exponent : (polyDegree f).toNat = f.length - 1 := by
      rw [length, Int.toNat_natCast]
    have listed : (∀ p ∈ fac.map Prod.fst,
          IsCoprime (ofCoeffs f) (X ^ Fintype.card F ^ ((f.length - 1) / p) - X)) ↔
        ∀ p, p.Prime → p ∣ f.length - 1 →
          IsCoprime (ofCoeffs f) (X ^ Fintype.card F ^ ((f.length - 1) / p) - X) :=
      forall_congr' fun p => by rw [factors.mem_iff, and_imp]
    have criterion := irreducible_iff_frobenius (f := ofCoeffs f) (by omega)
    rw [degree, ← listed, ← answer, ← polymodIs0_power_iff monic two] at criterion
    rw [polyIsIrred, if_neg small, lists, Option.map_some, polyIsIrredDegfac, run]
    simp only [exponent, elementPowMpz_ok, bind, Except.bind, pure, Except.pure]
    cases res with
    | false => exact ⟨false, rfl, iff_of_false Bool.false_ne_true fun irreducible =>
        Bool.false_ne_true (criterion.mp irreducible).2⟩
    | true =>
      refine ⟨_, rfl, ?_⟩
      rw [criterion]
      exact (and_iff_left rfl).symm

theorem polyIsIrred_exact_five : ∃ res, polyIsIrred [(1 : ZMod 5), 1, 0, 1] = some (.ok res) ∧
    (res = true ↔ Irreducible (ofCoeffs [(1 : ZMod 5), 1, 0, 1])) :=
  polyIsIrred_exact rfl (by decide)

end Test

end Pbc.Arith
