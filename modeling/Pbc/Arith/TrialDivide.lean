import Mathlib.FieldTheory.Finite.Basic
import Mathlib.Tactic.NormNum.Prime
import Pbc.Algebra.Generator
import Pbc.Gmp.Mpz

/-!
# Trial division and the test for generators

The factors of `q - 1` that `trial_divide` finds up to a limit, and `is_gen`, which tries the
cofactors of these factors. Above the limit trial division gives up, and what is left of
`q - 1` becomes one factor.
-/

open Pbc.Algebra Pbc.Gmp

namespace Pbc.Arith

/-- Divisions by `p` as long as it divides `z`, and `j` counts them. -/
def divideLoop (p : ℤ) : ℕ → ℤ → ℕ → Option (ℤ × ℕ)
  | 0, _, _ => none
  | fuel + 1, z, j => if z % p = 0 then divideLoop p fuel (z / p) (j + 1) else some (z, j)

/-- What the divisions leave and how many there are. Without a result they go on forever, as
divisions by one do. -/
def divideWhile (p z : ℤ) : Option (ℤ × ℕ) := divideLoop p (z.natAbs + 1) z 0

/-- The loop of `trial_divide`, with the factors and multiplicities found so far. -/
def trialDivideLoop (limit : Option ℤ) : ℕ → ℤ → ℤ → List (ℤ × ℕ) → Option (List (ℤ × ℕ))
  | 0, _, _, _ => none
  | fuel + 1, p, m, found =>
    if m = 1 then some found
    else
      let p := if mpzProbabPrimeP m then m else p
      let p := if limit.any (· < p) then m else p
      if m % p = 0 then
        (divideWhile p m).bind fun left =>
          trialDivideLoop limit fuel (mpzNextprime p) left.1 (found ++ [(p, left.2)])
      else trialDivideLoop limit fuel (mpzNextprime p) m found

/-- `trial_divide`: the factors of a positive integer with their multiplicities. -/
def trialDivide (n : ℤ) (limit : Option ℤ) : Option (List (ℤ × ℕ)) :=
  trialDivideLoop limit (n.natAbs + 1) 2 n []

/-- `is_gen`. The multiplicities are not used. -/
def isGen (x q : ℤ) (fac : List (ℤ × ℕ)) : Bool :=
  fac.all fun f => decide (mpzPowm x ((q - 1) / f.1) q ≠ 1)

/-- The limit up to which `index_calculus_dlog` divides: `mpz_setbit(z0, 6)`. -/
def dlogLimit : ℤ := 2 ^ 6

section Divide

variable {p c k : ℕ}

private theorem divideLoop_spec (two : 2 ≤ p) (rest : ¬p ∣ c) (j : ℕ) :
    ∀ fuel, k < fuel → divideLoop p fuel ((p ^ k * c : ℕ) : ℤ) j = some ((c : ℤ), j + k) := by
  induction k generalizing j with
  | zero =>
    intro fuel enough
    obtain ⟨fuel, rfl⟩ := Nat.exists_eq_add_of_lt enough
    have apart : ¬(c : ℤ) % p = 0 := by
      intro zero
      exact rest (Nat.dvd_of_mod_eq_zero (by exact_mod_cast zero))
    rw [divideLoop, pow_zero, one_mul, if_neg apart, add_zero]
  | succ k ih =>
    intro fuel enough
    obtain ⟨fuel, rfl⟩ := Nat.exists_eq_add_of_lt enough
    have product : ((p ^ (k + 1) * c : ℕ) : ℤ) = p * (p ^ k * c : ℕ) := by
      push_cast
      ring
    have nonzero : (p : ℤ) ≠ 0 := by omega
    rw [divideLoop, product, if_pos (Int.mul_emod_right _ _), Int.mul_ediv_cancel_left _ nonzero,
      ih (j + 1) _ (by omega), Nat.add_right_comm, Nat.add_assoc j k 1]

/-- Divisions by a number above one end when it divides no more. -/
theorem divideWhile_eq (two : 2 ≤ p) (positive : 0 < c) (rest : ¬p ∣ c) (k : ℕ) :
    divideWhile p ((p ^ k * c : ℕ) : ℤ) = some ((c : ℤ), k) := by
  have more : k < ((p ^ k * c : ℕ) : ℤ).natAbs + 1 := by
    rw [Int.natAbs_natCast]
    calc k < p ^ k := Nat.lt_pow_self (by omega)
      _ ≤ p ^ k * c := Nat.le_mul_of_pos_right _ positive
      _ < p ^ k * c + 1 := Nat.lt_succ_self _
  have run := divideLoop_spec two rest 0 _ more
  rwa [Nat.zero_add] at run

/-- Divisions by one go on forever. -/
theorem divideWhile_one (z : ℤ) : divideWhile 1 z = none := by
  have run (fuel : ℕ) (z : ℤ) (j : ℕ) : divideLoop 1 fuel z j = none := by
    induction fuel generalizing z j with
    | zero => rfl
    | succ fuel ih => exact (if_pos (Int.emod_one z)).trans (ih _ _)
  exact run _ _ _

/-- A number that does not divide is not divided out. -/
theorem divideWhile_of_not_dvd {p z : ℤ} (rest : ¬z % p = 0) : divideWhile p z = some (z, 0) :=
  if_neg rest

end Divide

section Trial

variable {limit fuel p m : ℕ} {found : List (ℤ × ℕ)}

/-- One factor of multiplicity one in the list of factors of a squarefree number. -/
def IsFactor (limit m d : ℕ) : Prop :=
  d.Prime ∧ d ≤ limit ∧ d ∣ m ∨ d = roughPart limit m ∧ d ≠ 1

/-- The list holds exactly the factors of a squarefree number, with multiplicity one. -/
def ListsFactors (limit m : ℕ) (fac : List (ℤ × ℕ)) : Prop :=
  ∀ f, f ∈ fac ↔ ∃ d : ℕ, f = ((d : ℤ), 1) ∧ IsFactor limit m d

private theorem listsFactors_one : ListsFactors limit 1 [] := by
  intro f
  refine ⟨fun member => absurd member List.not_mem_nil, ?_⟩
  rintro ⟨d, -, ⟨prime, -, divides⟩ | ⟨rough, apart⟩⟩
  · exact absurd (Nat.dvd_one.mp divides) prime.one_lt.ne'
  · exact absurd (Nat.dvd_one.mp (rough ▸ roughPart_dvd)) apart

/-- A prime, and a number whose prime factors are all above the limit, is one factor. -/
private theorem listsFactors_self (squarefree : Squarefree m) (more : m ≠ 1)
    (whole : m.Prime ∨ ∀ l, l.Prime → l ∣ m → limit < l) :
    ListsFactors limit m [((m : ℤ), 1)] := by
  intro f
  rw [List.mem_singleton]
  by_cases rough : ∀ l, l.Prime → l ∣ m → limit < l
  · have self := roughPart_eq_self squarefree rough
    constructor
    · rintro rfl
      exact ⟨m, rfl, Or.inr ⟨self.symm, more⟩⟩
    · rintro ⟨d, rfl, ⟨prime, small, divides⟩ | ⟨same, -⟩⟩
      · exact absurd (rough d prime divides) (not_lt.mpr small)
      · rw [same, self]
  · have prime := whole.resolve_right rough
    have small : m ≤ limit := by
      by_contra large
      refine rough fun l prime' divides => ?_
      rw [(Nat.prime_dvd_prime_iff_eq prime' prime).mp divides]
      exact not_le.mp large
    have smooth : roughPart limit m = 1 := by
      have none := roughPart_mul prime one_ne_zero small
      rwa [mul_one, Nat.dvd_one.mp (@roughPart_dvd limit 1)] at none
    constructor
    · rintro rfl
      exact ⟨m, rfl, Or.inl ⟨prime, small, dvd_rfl⟩⟩
    · rintro ⟨d, rfl, ⟨prime', -, divides⟩ | ⟨same, apart⟩⟩
      · rw [(Nat.prime_dvd_prime_iff_eq prime' prime).mp divides]
      · exact absurd (same.trans smooth) apart

/-- A small prime goes before the factors of the rest. -/
private theorem ListsFactors.cons {rest : List (ℤ × ℕ)} (factors : ListsFactors limit m rest)
    (prime : p.Prime) (positive : m ≠ 0) (small : p ≤ limit) :
    ListsFactors limit (p * m) (((p : ℤ), 1) :: rest) := by
  intro f
  rw [List.mem_cons, factors f]
  constructor
  · rintro (rfl | ⟨d, rfl, ⟨prime', small', divides⟩ | rough⟩)
    · exact ⟨p, rfl, Or.inl ⟨prime, small, dvd_mul_right p m⟩⟩
    · exact ⟨d, rfl, Or.inl ⟨prime', small', divides.mul_left p⟩⟩
    · exact ⟨d, rfl, Or.inr (by rwa [roughPart_mul prime positive small])⟩
  · rintro ⟨d, rfl, ⟨prime', small', divides⟩ | rough⟩
    · rcases prime'.dvd_mul.mp divides with divides | divides
      · rw [(Nat.prime_dvd_prime_iff_eq prime' prime).mp divides]
        exact Or.inl rfl
      · exact Or.inr ⟨d, rfl, Or.inl ⟨prime', small', divides⟩⟩
    · rw [roughPart_mul prime positive small] at rough
      exact Or.inr ⟨d, rfl, Or.inr rough⟩

section Rounds

variable (l : Option ℤ) (fuel : ℕ) {p m c k : ℕ} (found : List (ℤ × ℕ))

/-- A round, by the number that is tried in it. -/
private theorem trialDivideLoop_round {q : ℤ} (apart : ¬((m : ℤ) = 1))
    (tried : (if l.any (· < if mpzProbabPrimeP m then (m : ℤ) else p)
      then (m : ℤ) else if mpzProbabPrimeP m then (m : ℤ) else p) = q) :
    trialDivideLoop l (fuel + 1) p m found =
      if (m : ℤ) % q = 0 then
        (divideWhile q m).bind fun left =>
          trialDivideLoop l fuel (mpzNextprime q) left.1 (found ++ [(q, left.2)])
      else trialDivideLoop l fuel (mpzNextprime q) m found := by
  rw [trialDivideLoop, if_neg apart]
  simp only [tried]

/-- The last round, with all that is left as one factor. -/
theorem trialDivideLoop_last (more : m ≠ 1) (positive : 0 < m)
    (whole : m.Prime ∨ l.any (· < (p : ℤ)) = true) :
    trialDivideLoop l (fuel + 2) p m found = some (found ++ [((m : ℤ), 1)]) := by
  have apart : ¬((m : ℤ) = 1) := by exact_mod_cast more
  have chosen : (if l.any (· < if mpzProbabPrimeP m then (m : ℤ) else p)
      then (m : ℤ) else if mpzProbabPrimeP m then (m : ℤ) else p) = m := by
    rcases whole with prime | large
    · rw [if_pos ((mpzProbabPrimeP_natCast m).mpr prime), ite_self]
    · by_cases prime : mpzProbabPrimeP m = true
      · rw [if_pos prime, ite_self]
      · rw [if_neg prime, if_pos large]
  have divided := divideWhile_eq (p := m) (c := 1) (by omega) Nat.one_pos
    (fun divides => more (Nat.dvd_one.mp divides)) 1
  rw [pow_one, mul_one] at divided
  rw [trialDivideLoop_round l (fuel + 1) found apart chosen, Int.emod_self, if_pos rfl, divided,
    Option.bind_some]
  exact if_pos Nat.cast_one

variable {l} in
/-- A composite number is tried as long as the limit is not reached. -/
private theorem tried_eq (composite : ¬m.Prime) (small : ¬l.any (· < (p : ℤ)) = true) :
    (if l.any (· < if mpzProbabPrimeP m then (m : ℤ) else p)
      then (m : ℤ) else if mpzProbabPrimeP m then (m : ℤ) else p) = p := by
  rw [if_neg (mt (mpzProbabPrimeP_natCast m).mp composite), if_neg small]

variable {l}

/-- A round with a factor. -/
theorem trialDivideLoop_divides (composite : ¬(p ^ (k + 1) * c).Prime)
    (small : ¬l.any (· < (p : ℤ)) = true) (two : 2 ≤ p) (positive : 0 < c) (coprime : ¬p ∣ c) :
    trialDivideLoop l (fuel + 1) p (p ^ (k + 1) * c : ℕ) found =
      trialDivideLoop l fuel (mpzNextprime p) c (found ++ [((p : ℤ), k + 1)]) := by
  have divides : p ∣ p ^ (k + 1) * c := (dvd_pow_self p (Nat.succ_ne_zero k)).mul_right c
  have apart : ¬(((p ^ (k + 1) * c : ℕ) : ℤ) = 1) := by
    intro one
    have one : p ^ (k + 1) * c = 1 := by exact_mod_cast one
    rw [one, Nat.dvd_one] at divides
    omega
  rw [trialDivideLoop_round l fuel found apart (tried_eq composite small),
    divideWhile_eq two positive coprime, Option.bind_some]
  exact if_pos (Int.emod_eq_zero_of_dvd (Int.natCast_dvd_natCast.mpr divides))

/-- A round without a factor. -/
theorem trialDivideLoop_skips (more : m ≠ 1) (composite : ¬m.Prime)
    (small : ¬l.any (· < (p : ℤ)) = true) (rest : ¬p ∣ m) :
    trialDivideLoop l (fuel + 1) p m found =
      trialDivideLoop l fuel (mpzNextprime p) m found := by
  have apart : ¬((m : ℤ) = 1) := by exact_mod_cast more
  rw [trialDivideLoop_round l fuel found apart (tried_eq composite small)]
  refine if_neg fun zero => rest ?_
  exact Nat.dvd_of_mod_eq_zero (by exact_mod_cast zero)

end Rounds

/-- The factors and multiplicities that the rounds list of a number, primes up to the limit before
what is left. -/
inductive Factors (l : Option ℤ) : ℕ → List (ℕ × ℕ) → Prop where
  | one : Factors l 1 []
  | whole {m : ℕ} (more : 1 < m)
      (whole : m.Prime ∨ ∀ q : ℕ, q.Prime → q ∣ m → l.any (· < (q : ℤ)) = true) : Factors l m [(m, 1)]
  | cons {p k c : ℕ} {fac : List (ℕ × ℕ)} (prime : p.Prime) (small : ¬l.any (· < (p : ℤ)) = true)
      (positive : 0 < c) (coprime : ¬p ∣ c) (rest : Factors l c fac) :
      Factors l (p ^ (k + 1) * c) ((p, k + 1) :: fac)

/-- The listed pair. -/
def listed (f : ℕ × ℕ) : ℤ × ℕ := ((f.1 : ℤ), f.2)

/-- Trial division ends when no prime below `p` divides what is left, since every round moves `p` on
or makes what is left smaller. -/
private theorem trialDivideLoop_factors {l : Option ℤ} (found : List (ℤ × ℕ)) (prime : p.Prime)
    (positive : 0 < m) (rough : ∀ q, q.Prime → q ∣ m → p ≤ q) (some' : 0 < fuel)
    (enough : m = 1 ∨ m + 2 ≤ fuel + p) :
    ∃ fac, trialDivideLoop l fuel p m found = some (found ++ fac.map listed) ∧ Factors l m fac := by
  induction fuel generalizing p m found with
  | zero => exact absurd some' (lt_irrefl 0)
  | succ fuel ih =>
    by_cases one : m = 1
    · subst one
      refine ⟨[], ?_, .one⟩
      rw [trialDivideLoop, Nat.cast_one, if_pos rfl, List.map_nil, List.append_nil]
    have below : p ≤ m.minFac := rough _ (Nat.minFac_prime one) (Nat.minFac_dvd m)
    have least := Nat.minFac_le positive
    by_cases whole : m.Prime ∨ l.any (· < (p : ℤ)) = true
    · refine ⟨[(m, 1)], ?_, .whole (by omega) (whole.imp_right fun large q prime' divides => ?_)⟩
      · obtain ⟨fuel, rfl⟩ : ∃ f, fuel = f + 1 := Nat.exists_eq_add_one.mpr (by omega)
        exact trialDivideLoop_last _ fuel found one positive whole
      · cases l with
        | none => exact absurd large Bool.false_ne_true
        | some limit =>
          have next := rough q prime' divides
          rw [Option.any_some, decide_eq_true_iff] at large ⊢
          omega
    obtain ⟨composite, small⟩ := not_or.mp whole
    have strict : p + 2 ≤ m := by
      have other : m.minFac ≠ m := fun same => composite (same ▸ Nat.minFac_prime one)
      have pair : m ≠ m.minFac + 1 := by
        intro same
        have divides : m.minFac ∣ 1 := (Nat.dvd_add_right dvd_rfl).mp (same ▸ Nat.minFac_dvd m)
        exact (Nat.minFac_prime one).one_lt.ne' (Nat.dvd_one.mp divides)
      omega
    obtain ⟨p', next, prime', above, following⟩ := mpzNextprime_natCast p
    have step (m' : ℕ) (divides : m' ∣ m) (coprime : ¬p ∣ m') (q : ℕ) (prime'' : q.Prime)
        (factor : q ∣ m') : p' ≤ q := by
      refine following q prime'' (lt_of_le_of_ne (rough q prime'' (factor.trans divides)) ?_)
      rintro rfl
      exact coprime factor
    by_cases divides : p ∣ m
    · obtain ⟨k, c, coprime, product⟩ := Nat.exists_eq_pow_mul_and_not_dvd positive.ne' p prime.ne_one
      obtain ⟨k, rfl⟩ : ∃ k', k = k' + 1 := by
        refine Nat.exists_eq_add_one.mpr (Nat.pos_of_ne_zero ?_)
        rintro rfl
        rw [pow_zero, one_mul] at product
        exact coprime (product ▸ divides)
      subst product
      have positive' : 0 < c := Nat.pos_of_mul_pos_left positive
      have smaller : c ≤ p ^ (k + 1) * c := Nat.le_mul_of_pos_left c (pow_pos prime.pos _)
      obtain ⟨fac, run, factors⟩ := ih (found ++ [((p : ℤ), k + 1)]) prime' positive'
        (step c (dvd_mul_left c _) coprime) (by omega) (by omega)
      refine ⟨(p, k + 1) :: fac, ?_, .cons prime small positive' coprime factors⟩
      rw [trialDivideLoop_divides fuel found composite small prime.two_le positive' coprime, next, run,
        List.append_assoc, List.singleton_append, List.map_cons, listed]
    · obtain ⟨fac, run, factors⟩ := ih found prime' positive (step m dvd_rfl divides) (by omega)
        (by omega)
      refine ⟨fac, ?_, factors⟩
      rw [trialDivideLoop_skips fuel found one composite small divides, next, run]

/-- `trial_divide` of a positive number ends and lists its factors. -/
theorem trialDivide_factors (l : Option ℤ) {n : ℕ} (positive : 0 < n) :
    ∃ fac, trialDivide n l = some (fac.map listed) ∧ Factors l n fac := by
  have run : ∃ fac, trialDivideLoop l (n + 1) ((2 : ℕ) : ℤ) n [] = some ([] ++ fac.map listed) ∧
      Factors l n fac :=
    trialDivideLoop_factors [] Nat.prime_two positive (fun _ prime _ => prime.two_le) (Nat.succ_pos n)
      (Or.inr (by omega))
  rwa [trialDivide, Int.natAbs_natCast]

/-- The factors of a squarefree number. -/
private theorem Factors.listsFactors {fac : List (ℕ × ℕ)} (factors : Factors (some (limit : ℤ)) m fac)
    (squarefree : Squarefree m) : ListsFactors limit m (fac.map listed) := by
  induction factors with
  | one => exact listsFactors_one
  | whole more whole =>
    refine listsFactors_self squarefree more.ne' (whole.imp_right fun large q prime divides => ?_)
    have above := large q prime divides
    rw [Option.any_some, decide_eq_true_iff] at above
    exact_mod_cast above
  | @cons p k c fac prime small positive coprime rest ih =>
    have single : k = 0 := by
      by_contra more
      have square : p * p ∣ p ^ (k + 1) * c :=
        (pow_two p ▸ pow_dvd_pow p (show 2 ≤ k + 1 by omega)).mul_right c
      exact prime.one_lt.ne' (Nat.isUnit_iff.mp (squarefree p square))
    subst single
    rw [zero_add, pow_one] at squarefree ⊢
    rw [Option.any_some, decide_eq_true_iff] at small
    exact (ih squarefree.of_mul_right).cons prime positive.ne' (by exact_mod_cast not_lt.mp small)

/-- `trial_divide` of a squarefree number ends and lists its factors up to the limit. -/
theorem trialDivide_spec (limit : ℕ) {n : ℕ} (squarefree : Squarefree n) :
    ∃ fac, trialDivide n (some (limit : ℤ)) = some fac ∧ ListsFactors limit n fac := by
  obtain ⟨fac, run, factors⟩ :=
    trialDivide_factors (some (limit : ℤ)) (Nat.pos_of_ne_zero squarefree.ne_zero)
  exact ⟨_, run, factors.listsFactors squarefree⟩

end Trial

section Generators

variable {q : ℕ} [prime : Fact q.Prime] {x : ℤ} {fac : List (ℤ × ℕ)}

/-- The power of `mpz_powm` in the prime field. -/
theorem mpzPowm_eq_one_iff (x : ℤ) (e : ℕ) :
    mpzPowm x e q = 1 ↔ (x : ZMod q) ^ e = 1 := by
  have one : (1 : ℤ) % q = 1 := Int.emod_eq_of_lt one_pos.le (by exact_mod_cast prime.out.one_lt)
  have residue : (x : ZMod q) ^ e = 1 ↔ ((x ^ e : ℤ) : ZMod q) = (1 : ℤ) := by push_cast; rfl
  rw [residue, ZMod.intCast_eq_intCast_iff, Int.ModEq, one, mpzPowm, Int.toNat_natCast]

/-- The least nonnegative representatives of the units. -/
private theorem cast_ne_zero (unit : 1 ≤ x ∧ x < q) : (x : ZMod q) ≠ 0 := by
  rw [Ne, ZMod.intCast_zmod_eq_zero_iff_dvd]
  exact fun divides => absurd (Int.le_of_dvd (by omega) divides) (by omega)

/-- `is_gen` finds the subgroups of the listed factors. -/
theorem isGen_iff {limit : ℕ} (factors : ListsFactors limit (q - 1) fac)
    (nonzero : (x : ZMod q) ≠ 0) :
    isGen x q fac = true ↔
      ∀ d, IsFactor limit (q - 1) d → ¬d ∣ missedPart (q - 1) (x : ZMod q) := by
  have two := prime.out.two_le
  have power : (x : ZMod q) ^ (q - 1) = 1 := ZMod.pow_card_sub_one_eq_one nonzero
  have test (d : ℕ) (factor : IsFactor limit (q - 1) d) :
      mpzPowm x (((q : ℤ) - 1) / d) q = 1 ↔ d ∣ missedPart (q - 1) (x : ZMod q) := by
    have divides : d ∣ q - 1 := by
      rcases factor with ⟨-, -, divides⟩ | ⟨rfl, -⟩
      · exact divides
      · exact roughPart_dvd
    have cofactor : ((q : ℤ) - 1) / d = ((q - 1) / d : ℕ) := by
      rw [Int.natCast_div, Nat.cast_sub (by omega), Nat.cast_one]
    rw [cofactor, mpzPowm_eq_one_iff, pow_div_eq_one_iff (by omega) power divides]
  rw [isGen, List.all_eq_true]
  constructor
  · intro all d factor missed
    have found := all _ ((factors _).mpr ⟨d, rfl, factor⟩)
    exact of_decide_eq_true found ((test d factor).mpr missed)
  · intro none f member
    obtain ⟨d, rfl, factor⟩ := (factors f).mp member
    exact decide_eq_true fun one => none d factor ((test d factor).mp one)

/-- What trial division leaves of `q - 1` does not hide the subgroup of an element. -/
def SubgroupFound (q : ℕ) (x : ZMod q) : Prop :=
  missedPart (q - 1) x = 1 ∨ (∃ l, l.Prime ∧ l ≤ 64 ∧ l ∣ missedPart (q - 1) x) ∨
    (∃ l, l.Prime ∧ 64 < l ∧ l ∣ q - 1) ∧
      ∀ l, l.Prime → 64 < l → l ∣ q - 1 → l ∣ missedPart (q - 1) x

/-- The part of `q - 1` that is left is one factor. -/
private theorem exists_factor_dvd_iff {e : ℕ} (divides : e ∣ q - 1) :
    (∃ d, IsFactor 64 (q - 1) d ∧ d ∣ e) ↔ (∃ l, l.Prime ∧ l ≤ 64 ∧ l ∣ e) ∨
      (∃ l, l.Prime ∧ 64 < l ∧ l ∣ q - 1) ∧ ∀ l, l.Prime → 64 < l → l ∣ q - 1 → l ∣ e := by
  have positive : q - 1 ≠ 0 := Nat.sub_ne_zero_of_lt prime.out.one_lt
  have large : roughPart 64 (q - 1) ≠ 1 ↔ ∃ l, l.Prime ∧ 64 < l ∧ l ∣ q - 1 := by
    rw [← not_iff_not, not_ne_iff, ← Nat.dvd_one, roughPart_dvd_iff]
    constructor
    · rintro none ⟨l, prime', large, factor⟩
      exact prime'.one_lt.ne' (Nat.dvd_one.mp (none l prime' factor positive large))
    · intro none l prime' factor _ large
      exact absurd ⟨l, prime', large, factor⟩ none
  constructor
  · rintro ⟨d, ⟨prime', small, -⟩ | ⟨rfl, more⟩, found⟩
    · exact Or.inl ⟨d, prime', small, found⟩
    · refine Or.inr ⟨large.mp more, fun l prime' large factor => ?_⟩
      exact roughPart_dvd_iff.mp found l prime' factor positive large
  · rintro (⟨l, prime', small, found⟩ | ⟨more, all⟩)
    · exact ⟨l, Or.inl ⟨prime', small, found.trans divides⟩, found⟩
    · refine ⟨_, Or.inr ⟨rfl, large.mpr more⟩, roughPart_dvd_iff.mpr ?_⟩
      exact fun l prime' factor _ large => all l prime' large factor

/-- `is_gen` is right about an element unless trial division hides its subgroup. -/
private theorem isGen_generates_iff (factors : ListsFactors 64 (q - 1) fac)
    (nonzero : (x : ZMod q) ≠ 0) :
    (isGen x q fac = true ↔ Generates (x : ZMod q)) ↔ SubgroupFound q (x : ZMod q) := by
  have positive : 0 < q - 1 := Nat.sub_pos_of_lt prime.out.one_lt
  have power : (x : ZMod q) ^ (q - 1) = 1 := ZMod.pow_card_sub_one_eq_one nonzero
  have divides := missedPart_dvd power
  have generates : Generates (x : ZMod q) ↔ missedPart (q - 1) (x : ZMod q) = 1 := by
    rw [generates_iff_orderOf nonzero, ZMod.card, orderOf_eq_iff_missedPart positive power]
  have none : isGen x q fac = true ↔
      ¬∃ d, IsFactor 64 (q - 1) d ∧ d ∣ missedPart (q - 1) (x : ZMod q) := by
    rw [isGen_iff factors nonzero]
    push Not
    rfl
  rw [generates, none, SubgroupFound, ← exists_factor_dvd_iff divides]
  constructor
  · intro right
    by_cases full : missedPart (q - 1) (x : ZMod q) = 1
    · exact Or.inl full
    · exact Or.inr (not_not.mp (mt right.mp full))
  · rintro (full | found)
    · refine iff_of_true ?_ full
      rintro ⟨d, factor, found⟩
      rw [full, Nat.dvd_one] at found
      rcases factor with ⟨prime', -⟩ | ⟨-, more⟩
      · exact prime'.one_lt.ne' found
      · exact more found
    · refine iff_of_false (not_not.mpr found) fun full => ?_
      obtain ⟨d, factor, found⟩ := found
      rw [full, Nat.dvd_one] at found
      rcases factor with ⟨prime', -⟩ | ⟨-, more⟩
      · exact prime'.one_lt.ne' found
      · exact more found

/-- No subgroup is hidden exactly when at most one prime factor is above the limit. -/
private theorem subgroupFound_all_iff :
    (∀ x : ZMod q, x ≠ 0 → SubgroupFound q x) ↔ ∀ l l', l.Prime → l'.Prime → 64 < l → 64 < l' →
      l ∣ q - 1 → l' ∣ q - 1 → l = l' := by
  constructor
  · intro all l l' prime₁ prime₂ large large' divides divides'
    have divides₁ : l ∣ Fintype.card (ZMod q) - 1 := by rwa [ZMod.card]
    obtain ⟨x, nonzero, missed⟩ := exists_missedPart divides₁
    rw [ZMod.card] at missed
    rcases all x nonzero with full | ⟨r, prime₃, small, found⟩ | ⟨-, found⟩
    · exact absurd (missed.symm.trans full) prime₁.one_lt.ne'
    · rw [missed, Nat.prime_dvd_prime_iff_eq prime₃ prime₁] at found
      omega
    · have found := found l' prime₂ large' divides'
      rw [missed, Nat.prime_dvd_prime_iff_eq prime₂ prime₁] at found
      exact found.symm
  · intro single x nonzero
    by_cases full : missedPart (q - 1) x = 1
    · exact Or.inl full
    obtain ⟨l, prime', found⟩ := Nat.exists_prime_and_dvd full
    have divides : l ∣ q - 1 :=
      found.trans (missedPart_dvd (ZMod.pow_card_sub_one_eq_one nonzero))
    by_cases small : l ≤ 64
    · exact Or.inr (Or.inl ⟨l, prime', small, found⟩)
    · refine Or.inr (Or.inr ⟨⟨l, prime', not_le.mp small, divides⟩, fun l' prime'' large factor => ?_⟩)
      rwa [← single l l' prime' prime'' (not_le.mp small) large divides factor]

/-- `is_gen` with the factors of `trial_divide` is right about an element exactly when the
subgroup it generates is the whole group, misses a prime factor up to the limit, or misses all
prime factors above the limit. It is right about every element exactly when there is at most one
prime factor above the limit. -/
theorem isGen_exact_iff (squarefree : Squarefree (q - 1)) :
    ∃ fac, trialDivide ((q : ℤ) - 1) (some dlogLimit) = some fac ∧
      (∀ x : ℤ, 1 ≤ x ∧ x ≤ q - 1 →
        ((isGen x q fac = true ↔ Generates (x : ZMod q)) ↔ SubgroupFound q (x : ZMod q))) ∧
      ((∀ x : ℤ, 1 ≤ x ∧ x ≤ q - 1 → (isGen x q fac = true ↔ Generates (x : ZMod q))) ↔
        ∀ l l', l.Prime → l'.Prime → 64 < l → 64 < l' → l ∣ q - 1 → l' ∣ q - 1 → l = l') := by
  obtain ⟨fac, run, factors⟩ := trialDivide_spec 64 squarefree
  have order : ((q - 1 : ℕ) : ℤ) = (q : ℤ) - 1 := by
    rw [Nat.cast_sub prime.out.one_le, Nat.cast_one]
  have each (x : ℤ) (range : 1 ≤ x ∧ x ≤ q - 1) :=
    isGen_generates_iff factors (cast_ne_zero ⟨range.1, Int.lt_of_le_sub_one range.2⟩)
  refine ⟨fac, by rw [← order]; exact run, each, ?_⟩
  rw [← subgroupFound_all_iff]
  constructor
  · intro all x nonzero
    have value : ((x.val : ℤ) : ZMod q) = x := by rw [Int.cast_natCast, ZMod.natCast_zmod_val]
    have range : 1 ≤ (x.val : ℤ) ∧ (x.val : ℤ) ≤ q - 1 := by
      have positive : x.val ≠ 0 := (ZMod.val_ne_zero x).mpr nonzero
      have small := ZMod.val_lt x
      omega
    have found := (each x.val range).mp (all x.val range)
    rwa [value] at found
  · intro all x range
    refine (each x range).mpr (all x (cast_ne_zero ⟨range.1, ?_⟩))
    exact Int.lt_of_le_sub_one range.2

end Generators

private theorem hidingPrime : Nat.Prime 11927 := by norm_num

private theorem hiding_factors {l : ℕ} (prime : l.Prime) (divides : l ∣ 11926) :
    l = 2 ∨ l = 67 ∨ l = 89 := by
  rw [show 11926 = 2 * (67 * 89) from rfl, prime.dvd_mul, prime.dvd_mul] at divides
  rcases divides with divides | divides | divides
  · exact Or.inl ((Nat.prime_dvd_prime_iff_eq prime Nat.prime_two).mp divides)
  · exact Or.inr (Or.inl ((Nat.prime_dvd_prime_iff_eq prime (by norm_num)).mp divides))
  · exact Or.inr (Or.inr ((Nat.prime_dvd_prime_iff_eq prime (by norm_num)).mp divides))

private theorem hidingSquarefree : Squarefree 11926 := by
  have two : Nat.Prime 2 := Nat.prime_two
  have large : Nat.Prime 67 := by norm_num
  have large' : Nat.Prime 89 := by norm_num
  rw [show 11926 = 2 * (67 * 89) from rfl, Nat.squarefree_mul (by norm_num),
    Nat.squarefree_mul (by norm_num)]
  exact ⟨two.prime.squarefree, large.prime.squarefree, large'.prime.squarefree⟩

theorem isGen_exact_hiding : ∃ fac, trialDivide (11927 - 1) (some dlogLimit) = some fac ∧
    (∀ x : ℤ, 1 ≤ x ∧ x ≤ 11927 - 1 →
      ((isGen x 11927 fac = true ↔ Generates (x : ZMod 11927)) ↔ SubgroupFound 11927 x)) ∧
    ((∀ x : ℤ, 1 ≤ x ∧ x ≤ 11927 - 1 → (isGen x 11927 fac = true ↔ Generates (x : ZMod 11927))) ↔
      ∀ l l', l.Prime → l'.Prime → 64 < l → 64 < l' → l ∣ 11926 → l' ∣ 11926 → l = l') :=
  haveI := Fact.mk hidingPrime
  isGen_exact_iff hidingSquarefree

/-- The subgroup of index 89 modulo 11927 is hidden by the factor `67 * 89`. -/
theorem isGen_not_exact : Nat.Prime 11927 ∧ Squarefree (11927 - 1) ∧
    ∃ fac, trialDivide (11927 - 1) (some dlogLimit) = some fac ∧
      isGen 39 11927 fac = true ∧ ¬Generates ((39 : ℤ) : ZMod 11927) := by
  have := Fact.mk hidingPrime
  have nonzero : ((39 : ℤ) : ZMod 11927) ≠ 0 := cast_ne_zero (by norm_num)
  have power : ((39 : ℤ) : ZMod 11927) ^ 11926 = 1 := ZMod.pow_card_sub_one_eq_one nonzero
  have test (d e : ℕ) (cofactor : 11926 = d * e) : d ∣ missedPart 11926 ((39 : ℤ) : ZMod 11927) ↔
      (39 : ℤ) ^ e % 11927 = 1 := by
    have apart : 0 < d := by
      by_contra zero
      obtain rfl := Nat.eq_zero_of_not_pos zero
      omega
    have reduced := mpzPowm_eq_one_iff (q := 11927) 39 e
    rw [mpzPowm, Int.toNat_natCast, Nat.cast_ofNat] at reduced
    rw [reduced, ← pow_div_eq_one_iff (by norm_num) power ⟨e, cofactor⟩, cofactor,
      Nat.mul_div_cancel_left e apart]
  obtain ⟨fac, run, factors⟩ := trialDivide_spec 64 hidingSquarefree
  refine ⟨hidingPrime, hidingSquarefree, fac, run, (isGen_iff factors nonzero).mpr ?_, ?_⟩
  · rintro d (⟨prime, small, divides⟩ | ⟨rfl, -⟩)
    · have two : d = 2 := by
        rcases hiding_factors prime divides with rfl | rfl | rfl
        · rfl
        · exact absurd small (by norm_num)
        · exact absurd small (by norm_num)
      rw [two, test 2 5963 rfl]
      decide +kernel
    · intro found
      have large : 67 ∣ missedPart 11926 ((39 : ℤ) : ZMod 11927) :=
        roughPart_dvd_iff.mp found 67 (by norm_num) ⟨178, rfl⟩ (by norm_num) (by norm_num)
      rw [test 67 178 rfl] at large
      norm_num at large
  · have missed : 89 ∣ missedPart 11926 ((39 : ℤ) : ZMod 11927) := by
      rw [test 89 134 rfl]
      norm_num
    rw [generates_iff_orderOf nonzero, ZMod.card, orderOf_eq_iff_missedPart (by norm_num) power]
    intro full
    rw [full] at missed
    exact absurd missed (by norm_num)

end Pbc.Arith
