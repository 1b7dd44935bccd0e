import Pbc.Arith.TrialDivide

/-!
# The lists of trial division

The arrays that `trial_divide` fills hold a factorisation into coprime parts, all of them prime
except perhaps the last, which has no prime factor up to the limit. A multiplicity is counted in an
`unsigned int`, so it is lost when a prime divides that often.
-/

open Pbc.Gmp

namespace Pbc.Arith

/-- `trial_divide`: the arrays `factor` and `mult`. The counter `mul` is an `unsigned int`. -/
def trialDivideLists (n : ℤ) (limit : Option ℤ) : Option (List ℤ × List UInt32) :=
  (trialDivide n limit).map fun fac => (fac.map Prod.fst, fac.map fun f => UInt32.ofNat f.2)

/-- The lists are a factorisation of `n` by division up to the limit. -/
structure FactorLists (limit : Option ℤ) (n : ℤ) (factor : List ℤ) (mult : List UInt32) : Prop where
  length : factor.length = mult.length
  product : (List.zipWith (fun f k => f ^ k.toNat) factor mult).prod = n
  positive : ∀ k ∈ mult, 1 ≤ k
  coprime : factor.Pairwise IsCoprime
  prime : ∀ f ∈ factor.dropLast, Prime f
  last : ∀ f ∈ factor.getLast?, Prime f ∨
    ∀ p : ℕ, p.Prime → (p : ℤ) ∣ f → ∃ l, limit = some l ∧ l < p

section Values

variable {l : Option ℤ} {n : ℕ} {fac : List (ℕ × ℕ)}

/-- A prime is tried unless it is above the limit. -/
theorem not_any_lt_iff {p : ℕ} : ¬l.any (· < (p : ℤ)) = true ↔ ∀ limit, l = some limit → (p : ℤ) ≤ limit := by
  cases l with
  | none => simp
  | some limit => simp

theorem Factors.product (factors : Factors l n fac) : (fac.map fun f => f.1 ^ f.2).prod = n := by
  induction factors with
  | one => rfl
  | whole => rw [List.map_singleton, List.prod_singleton, pow_one]
  | cons _ _ _ _ _ ih => rw [List.map_cons, List.prod_cons, ih]

theorem Factors.dvd (factors : Factors l n fac) {f : ℕ × ℕ} (member : f ∈ fac) : f.1 ^ f.2 ∣ n := by
  rw [← factors.product]
  exact List.dvd_prod (List.mem_map_of_mem member)

theorem Factors.more (factors : Factors l n fac) : ∀ f ∈ fac, 1 < f.1 ∧ 0 < f.2 := by
  induction factors with
  | one => exact fun f member => absurd member List.not_mem_nil
  | whole more =>
    intro f member
    rw [List.mem_singleton.mp member]
    exact ⟨more, Nat.one_pos⟩
  | cons prime _ _ _ _ ih =>
    intro f member
    rcases List.mem_cons.mp member with rfl | member
    · exact ⟨prime.one_lt, Nat.succ_pos _⟩
    · exact ih f member

theorem Factors.coprime (factors : Factors l n fac) :
    fac.Pairwise fun f g => f.1.Coprime g.1 := by
  induction factors with
  | one => exact .nil
  | whole => exact List.pairwise_singleton _ _
  | cons prime _ _ coprime rest ih =>
    refine List.pairwise_cons.mpr ⟨fun g member => ?_, ih⟩
    refine prime.coprime_iff_not_dvd.mpr fun divides => coprime ?_
    exact (divides.trans (dvd_pow_self g.1 (rest.more g member).2.ne')).trans (rest.dvd member)

/-- A part that is divided more than once is a prime that is tried. -/
theorem Factors.single_or_prime (factors : Factors l n fac) : ∀ f ∈ fac,
    f.2 = 1 ∨ f.1.Prime ∧ ¬l.any (· < (f.1 : ℤ)) = true := by
  induction factors with
  | one => exact fun f member => absurd member List.not_mem_nil
  | whole => exact fun f member => Or.inl (by rw [List.mem_singleton.mp member])
  | cons prime small _ _ _ ih =>
    intro f member
    rcases List.mem_cons.mp member with rfl | member
    · exact Or.inr ⟨prime, small⟩
    · exact ih f member

/-- A prime that is tried is listed with its full multiplicity. -/
theorem Factors.mem_of_prime (factors : Factors l n fac) {p k : ℕ} (prime : p.Prime)
    (small : ¬l.any (· < (p : ℤ)) = true) (some' : k ≠ 0) (divides : p ^ k ∣ n) :
    ∃ f ∈ fac, f.1 = p ∧ k ≤ f.2 := by
  induction factors with
  | one => exact absurd (Nat.dvd_one.mp ((dvd_pow_self p some').trans divides)) prime.one_lt.ne'
  | @whole m more whole =>
    have divides' : p ∣ m := (dvd_pow_self p some').trans divides
    rcases whole with whole | rough
    · obtain rfl := (Nat.prime_dvd_prime_iff_eq prime whole).mp divides'
      refine ⟨(p, 1), List.mem_singleton_self _, rfl, ?_⟩
      exact (Nat.pow_dvd_pow_iff_le_right more).mp (by rwa [pow_one])
    · exact absurd (rough p prime divides') small
  | @cons r j c fac prime' _ positive coprime _ ih =>
    by_cases same : p = r
    · subst same
      refine ⟨(p, j + 1), List.mem_cons_self, rfl, not_lt.mp fun fewer => coprime ?_⟩
      have more : p ^ (j + 1 + 1) ∣ p ^ (j + 1) * c := (pow_dvd_pow p fewer).trans divides
      rw [pow_succ] at more
      exact Nat.dvd_of_mul_dvd_mul_left (pow_pos prime.pos _) more
    · have apart : (p ^ k).Coprime (r ^ (j + 1)) :=
        Nat.Coprime.pow _ _ ((Nat.coprime_primes prime prime').mpr same)
      obtain ⟨f, member, found⟩ := ih (apart.dvd_of_dvd_mul_left divides)
      exact ⟨f, List.mem_cons_of_mem _ member, found⟩

/-- The parts before the last are prime, and the last is prime or has no factor that is tried. -/
theorem Factors.prime_or_rough (factors : Factors l n fac) :
    (∀ f ∈ (fac.map fun f => (f.1 : ℤ)).dropLast, Prime f) ∧
      ∀ f ∈ (fac.map fun f => (f.1 : ℤ)).getLast?, Prime f ∨
        ∀ p : ℕ, p.Prime → (p : ℤ) ∣ f → ∃ limit, l = some limit ∧ limit < p := by
  induction factors with
  | one => simp
  | @whole m more whole =>
    refine ⟨by simp, fun f member => ?_⟩
    rw [List.map_singleton, List.getLast?_singleton, Option.mem_some_iff] at member
    subst member
    refine whole.imp Nat.prime_iff_prime_int.mp fun rough p prime divides => ?_
    have above := rough p prime (Int.natCast_dvd_natCast.mp divides)
    cases l with
    | none => exact absurd above Bool.false_ne_true
    | some limit =>
      rw [Option.any_some, decide_eq_true_iff] at above
      exact ⟨limit, rfl, above⟩
  | @cons p k c fac prime _ _ _ _ ih =>
    cases fac with
    | nil =>
      refine ⟨by simp, fun f member => Or.inl ?_⟩
      rw [List.map_singleton, List.getLast?_singleton, Option.mem_some_iff] at member
      exact member ▸ Nat.prime_iff_prime_int.mp prime
    | cons g fac =>
      rw [List.map_cons, List.map_cons, List.dropLast_cons_cons, List.getLast?_cons_cons]
      refine ⟨fun f member => ?_, ih.2⟩
      rcases List.mem_cons.mp member with rfl | member
      · exact Nat.prime_iff_prime_int.mp prime
      · exact ih.1 f member

/-- Smaller exponents of the same parts give a smaller product. -/
private theorem exponents_eq (fac : List (ℕ × ℕ)) (more : ∀ f ∈ fac, 1 < f.1) (reduce : ℕ → ℕ)
    (below : ∀ k, reduce k ≤ k)
    (same : (fac.map fun f => f.1 ^ reduce f.2).prod = (fac.map fun f => f.1 ^ f.2).prod) :
    ∀ f ∈ fac, reduce f.2 = f.2 := by
  have smaller (fac : List (ℕ × ℕ)) (more : ∀ f ∈ fac, 1 < f.1) :
      (fac.map fun f => f.1 ^ reduce f.2).prod ≤ (fac.map fun f => f.1 ^ f.2).prod ∧
        0 < (fac.map fun f => f.1 ^ reduce f.2).prod := by
    induction fac with
    | nil => exact ⟨le_rfl, Nat.one_pos⟩
    | cons f fac ih =>
      obtain ⟨large, rest⟩ := List.forall_mem_cons.mp more
      obtain ⟨le, positive⟩ := ih rest
      rw [List.map_cons, List.map_cons, List.prod_cons, List.prod_cons]
      exact ⟨Nat.mul_le_mul (Nat.pow_le_pow_right (by omega) (below _)) le,
        Nat.mul_pos (pow_pos (by omega) _) positive⟩
  induction fac with
  | nil => exact fun f member => absurd member List.not_mem_nil
  | cons f fac ih =>
    obtain ⟨large, rest⟩ := List.forall_mem_cons.mp more
    obtain ⟨le, positive⟩ := smaller fac rest
    have first : f.1 ^ reduce f.2 ≤ f.1 ^ f.2 := Nat.pow_le_pow_right (by omega) (below _)
    have unit : 0 < f.1 ^ f.2 := pow_pos (by omega) _
    rw [List.map_cons, List.map_cons, List.prod_cons, List.prod_cons] at same
    have head : f.1 ^ reduce f.2 = f.1 ^ f.2 := by
      refine le_antisymm first (not_lt.mp fun less => ?_)
      exact absurd same (Nat.mul_lt_mul_of_lt_of_le less le (positive.trans_le le)).ne
    rw [head] at same
    intro g member
    rcases List.mem_cons.mp member with rfl | member
    · exact Nat.pow_right_injective large head
    · exact ih rest (Nat.eq_of_mul_eq_mul_left unit same) g member

/-- The lists are a factorisation exactly when every multiplicity fits the counter. -/
theorem Factors.factorLists_iff (factors : Factors l n fac) :
    FactorLists l n (fac.map fun f => (f.1 : ℤ)) (fac.map fun f => UInt32.ofNat f.2) ↔
      ∀ f ∈ fac, f.2 < 2 ^ 32 := by
  have product : (List.zipWith (fun (f : ℤ) (k : UInt32) => f ^ k.toNat) (fac.map fun f => (f.1 : ℤ))
      (fac.map fun f => UInt32.ofNat f.2)).prod = ((fac.map fun f => f.1 ^ (f.2 % 2 ^ 32)).prod : ℕ) := by
    rw [List.zipWith_map, List.zipWith_self, Nat.cast_list_prod, List.map_map]
    refine congrArg List.prod (List.map_congr_left fun f _ => ?_)
    rw [UInt32.toNat_ofNat', Function.comp_apply, Nat.cast_pow]
  constructor
  · intro lists f member
    have same := product.symm.trans lists.product
    have same : (fac.map fun f => f.1 ^ (f.2 % 2 ^ 32)).prod = (fac.map fun f => f.1 ^ f.2).prod := by
      rw [factors.product]
      exact_mod_cast same
    have reduced := exponents_eq fac (fun f member => (factors.more f member).1) (· % 2 ^ 32)
      (fun k => Nat.mod_le k _) same f member
    rw [← reduced]
    exact Nat.mod_lt _ (Nat.two_pow_pos 32)
  · intro fit
    refine ⟨by rw [List.length_map, List.length_map], ?_, ?_, ?_, factors.prime_or_rough.1,
      factors.prime_or_rough.2⟩
    · have whole : (fac.map fun f => f.1 ^ (f.2 % 2 ^ 32)) = fac.map fun f => f.1 ^ f.2 :=
        List.map_congr_left fun f member => by rw [Nat.mod_eq_of_lt (fit f member)]
      rw [product, whole, factors.product]
    · intro k member
      obtain ⟨f, member', rfl⟩ := List.mem_map.mp member
      rw [UInt32.le_iff_toNat_le, UInt32.toNat_ofNat', Nat.mod_eq_of_lt (fit f member')]
      exact (factors.more f member').2
    · rw [List.pairwise_map]
      exact factors.coprime.imp fun coprime => Nat.isCoprime_iff_coprime.mpr coprime

/-- `trial_divide` of a positive number ends, and its lists are a factorisation exactly when no prime
up to the limit divides `2^32` times. -/
theorem trialDivideLists_exact_iff (l : Option ℤ) {n : ℕ} (positive : 0 < n) :
    ∃ factor mult, trialDivideLists n l = some (factor, mult) ∧
      (FactorLists l n factor mult ↔
        ¬∃ p : ℕ, p.Prime ∧ (∀ limit, l = some limit → (p : ℤ) ≤ limit) ∧ p ^ 2 ^ 32 ∣ n) := by
  obtain ⟨fac, run, factors⟩ := trialDivide_factors l positive
  refine ⟨fac.map fun f => (f.1 : ℤ), fac.map fun f => UInt32.ofNat f.2, ?_, ?_⟩
  · rw [trialDivideLists, run, Option.map_some, List.map_map, List.map_map]
    rfl
  rw [factors.factorLists_iff]
  constructor
  · rintro fit ⟨p, prime, small, divides⟩
    obtain ⟨f, member, -, large⟩ :=
      factors.mem_of_prime prime (not_any_lt_iff.mpr small) (pow_ne_zero 32 two_ne_zero) divides
    exact (fit f member).not_ge large
  · intro none f member
    by_contra large
    have large := not_lt.mp large
    rcases factors.single_or_prime f member with single | ⟨prime, small⟩
    · rw [single] at large
      exact absurd large (by norm_num)
    · have power : f.1 ^ 2 ^ 32 ∣ f.1 ^ f.2 := pow_dvd_pow f.1 large
      exact none ⟨f.1, prime, not_any_lt_iff.mp small, power.trans (factors.dvd member)⟩

theorem trialDivideLists_exact_twelve : ∃ factor mult, trialDivideLists (12 : ℕ) none = some (factor, mult) ∧
    (FactorLists none (12 : ℕ) factor mult ↔ ¬∃ p : ℕ, p.Prime ∧
      (∀ limit : ℤ, none = some limit → (p : ℤ) ≤ limit) ∧ p ^ 2 ^ 32 ∣ 12) :=
  trialDivideLists_exact_iff none (by decide)

/-- Trial division of a power of two. -/
private theorem trialDivide_two_pow (k : ℕ) :
    trialDivide ((2 ^ (k + 1 + 1) : ℕ) : ℤ) none = some [(2, k + 1 + 1)] := by
  have composite : ¬(2 ^ (k + 1 + 1) * 1).Prime := by
    rw [mul_one]
    exact Nat.Prime.not_prime_pow (by omega)
  have round := trialDivideLoop_divides (l := none) (2 ^ (k + 1 + 1)) [] composite Bool.false_ne_true
    le_rfl Nat.one_pos (by decide)
  obtain ⟨fuel, some'⟩ : ∃ fuel, 2 ^ (k + 1 + 1) = fuel + 1 :=
    Nat.exists_eq_add_one.mpr (Nat.two_pow_pos _)
  rw [mul_one] at round
  rw [trialDivide, Int.natAbs_natCast]
  refine round.trans ?_
  rw [some', trialDivideLoop, Nat.cast_one, if_pos rfl]
  rfl

/-- The multiplicity of two in `2^(2^32)` is counted as zero. -/
theorem trialDivideLists_wraps : trialDivideLists ((2 ^ 2 ^ 32 : ℕ) : ℤ) none = some ([2], [0]) ∧
    ¬FactorLists none ((2 ^ 2 ^ 32 : ℕ) : ℤ) [2] [0] := by
  constructor
  · obtain ⟨k, width⟩ : ∃ k : ℕ, 2 ^ 32 = k + 1 + 1 := ⟨2 ^ 32 - 2, rfl⟩
    have wraps : UInt32.ofNat (k + 1 + 1) = 0 := by
      rw [← width]
      rfl
    rw [width, trialDivideLists, trialDivide_two_pow, Option.map_some, List.map_singleton,
      List.map_singleton, wraps]
  · intro lists
    exact absurd (lists.positive 0 (List.mem_singleton_self 0)) (by decide)

end Values

end Pbc.Arith
