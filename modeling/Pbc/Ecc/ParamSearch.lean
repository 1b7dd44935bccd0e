import Pbc.Arith.Random
import Pbc.Ecc.EParam

/-!
# The searches for parameters of types A and E

Both generators draw a prime with two or three nonzero bits and then try ten cofactors with it.
Neither looks at the report of the random numbers, so a cofactor may have one bit too many.
-/

open Pbc.Arith Pbc.Gmp

namespace Pbc.Ecc

/-- `rand` of the C library, and the random bytes. -/
structure RandomSource (W : Type) where
  rand : W → ℕ × W
  bytes : RandBytes W

/-- What stops a search. -/
inductive SearchFault
  | divideByZero
  | hugeShift
  deriving DecidableEq, Repr

/-- The prime of a search, and the exponents and signs that it is made of. -/
structure SolinasDraw where
  exp2 : ℕ
  exp1 : ℕ
  sign1 : ℤ
  sign0 : ℤ
  r : ℤ
  deriving DecidableEq, Repr

variable {W : Type}

/-- The first part of a round of `a_param_gen` and `e_param_gen`. -/
def drawSolinas (src : RandomSource W) (rbits : ℤ) (w : W) : Except SearchFault (SolinasDraw × W) :=
  let coin2 := src.rand w
  let exp2 := if coin2.1 % 2 ≠ 0 then rbits - 1 else rbits
  let sign1 : ℤ := if coin2.1 % 2 ≠ 0 then 1 else -1
  -- `mpz_setbit` takes the exponent for an unsigned number
  if exp2 < 0 then .error .hugeShift
  else if exp2 - 1 = 0 then .error .divideByZero
  else
    let coin1 := src.rand coin2.2
    let exp1 := ((coin1.1 : ℤ).tmod (exp2 - 1) + 1).toNat
    let r : ℤ := 2 ^ exp2.toNat
    let r := if sign1 > 0 then r + 2 ^ exp1 else r - 2 ^ exp1
    let coin0 := src.rand coin1.2
    let sign0 : ℤ := if coin0.1 % 2 ≠ 0 then 1 else -1
    let r := if coin0.1 % 2 ≠ 0 then r + 1 else r - 1
    .ok (⟨exp2.toNat, exp1, sign1, sign0, r⟩, coin0.2)

/-- The second part of a round: some tries with a random number of `bit` bits, from which
`candidate` makes a cofactor and the size of a field. -/
def tryCofactors (src : RandomSource W) (bit : ℕ) (candidate : ℤ → ℤ × ℤ) :
    ℕ → W → Option (ℤ × ℤ) × W
  | 0, w => (none, w)
  | tries + 1, w =>
    let drawn := pbcMpzRandom src.bytes ((2 ^ bit : ℕ) : ℤ) w
    if mpzProbabPrimeP (candidate drawn.1).2 then (some (candidate drawn.1), drawn.2)
    else tryCofactors src bit candidate tries drawn.2

/-- The loop of `a_param_gen` and `e_param_gen`: rounds until one finds a field. -/
def searchRounds (src : RandomSource W) (rbits : ℤ) (bit : ℕ) (candidate : ℤ → ℤ → ℤ × ℤ) :
    ℕ → W → Except SearchFault (Option (SolinasDraw × ℤ × ℤ) × W)
  | 0, w => .ok (none, w)
  | fuel + 1, w => do
    let (draw, w) ← drawSolinas src rbits w
    if mpzProbabPrimeP draw.r then
      match tryCofactors src bit (candidate draw.r) 10 w with
      | (some (h, q), w) => .ok (some (draw, h, q), w)
      | (none, w) => searchRounds src rbits bit candidate fuel w
    else searchRounds src rbits bit candidate fuel w

/-- The cofactor and the field of a try of `a_param_gen`. -/
def aCandidate (r k : ℤ) : ℤ × ℤ :=
  let h := k * 12
  let q := h * r
  (h, q - 1)

/-- The number of bits that `a_param_gen` draws for a cofactor. -/
def aCofactorBits (rbits qbits : ℤ) : ℕ :=
  let bit := qbits - rbits - 4 + 1
  let bit := if bit < 3 then 3 else bit
  bit.toNat

/-- `a_param_gen`. -/
def aParamGen (src : RandomSource W) (rbits qbits : ℤ) (fuel : ℕ) (w : W) :
    Except SearchFault (Option AParam × W) := do
  let out ← searchRounds src rbits (aCofactorBits rbits qbits) aCandidate fuel w
  .ok (out.1.map fun found => ⟨found.2.2.toNat, found.1.r.toNat, found.2.1.toNat, found.1.exp2,
    found.1.exp1, found.1.sign1, found.1.sign0⟩, out.2)

/-- The cofactor and the field of a try of `e_param_gen`. -/
def eCandidate (r k : ℤ) : ℤ × ℤ :=
  let h := k * k
  let h := h * 3
  let n := r * r
  let n := n * h
  (h, n + 1)

/-- The number of bits that `e_param_gen` draws for a cofactor. -/
def eCofactorBits (rbits qbits : ℤ) : ℕ :=
  let hbits := (qbits - 2).tdiv 2 - rbits
  let hbits := if hbits < 3 then 3 else hbits
  (hbits + 1).toNat

/-- The numbers that the first part of `e_param_gen` leaves. -/
structure ENumbers where
  q : ℕ
  r : ℕ
  h : ℕ
  exp2 : ℕ
  exp1 : ℕ
  sign1 : ℤ
  sign0 : ℤ
  deriving DecidableEq, Repr

/-- The first part of `e_param_gen`, up to the choice of the curve. -/
def eParamGenNumbers (src : RandomSource W) (rbits qbits : ℤ) (fuel : ℕ) (w : W) :
    Except SearchFault (Option ENumbers × W) := do
  let out ← searchRounds src rbits (eCofactorBits rbits qbits) eCandidate fuel w
  .ok (out.1.map fun found => ⟨found.2.2.toNat, found.1.r.toNat, found.2.1.toNat, found.1.exp2,
    found.1.exp1, found.1.sign1, found.1.sign0⟩, out.2)

/-- The shape of the primes of a search of `rbits` bits. -/
structure SolinasDraw.Shaped (rbits : ℤ) (draw : SolinasDraw) : Prop where
  bits : draw.sign1 = 1 ∧ (draw.exp2 : ℤ) = rbits - 1 ∨ draw.sign1 = -1 ∧ (draw.exp2 : ℤ) = rbits
  positive : 0 < draw.exp1
  below : draw.exp1 < draw.exp2
  sign0 : draw.sign0 = 1 ∨ draw.sign0 = -1
  form : draw.r = 2 ^ draw.exp2 + draw.sign1 * 2 ^ draw.exp1 + draw.sign0

section Draws

variable {rbits : ℤ}

/-- What a round draws, from the three results of `rand`. -/
def solinasOf (rbits : ℤ) (coin2 coin1 coin0 : ℕ) : SolinasDraw :=
  let sign1 : ℤ := if coin2 % 2 ≠ 0 then 1 else -1
  let exp2 := (if coin2 % 2 ≠ 0 then rbits - 1 else rbits).toNat
  let exp1 := coin1 % (exp2 - 1) + 1
  let sign0 : ℤ := if coin0 % 2 ≠ 0 then 1 else -1
  ⟨exp2, exp1, sign1, sign0, 2 ^ exp2 + sign1 * 2 ^ exp1 + sign0⟩

/-- From three bits on a round neither divides by zero nor shifts by a negative number. -/
theorem drawSolinas_ok (large : 3 ≤ rbits) (src : RandomSource W) (w : W) :
    drawSolinas src rbits w =
      .ok (solinasOf rbits (src.rand w).1 (src.rand (src.rand w).2).1
          (src.rand (src.rand (src.rand w).2).2).1,
        (src.rand (src.rand (src.rand w).2).2).2) := by
  obtain ⟨n, bits, two⟩ : ∃ n : ℕ,
      (if (src.rand w).1 % 2 ≠ 0 then rbits - 1 else rbits) = n ∧ 2 ≤ n :=
    ⟨(if (src.rand w).1 % 2 ≠ 0 then rbits - 1 else rbits).toNat, by split_ifs <;> omega,
      by split_ifs <;> omega⟩
  have nonneg : ¬(n : ℤ) < 0 := by omega
  have several : (n : ℤ) - 1 ≠ 0 := by omega
  have reduced (c : ℕ) : ((c : ℤ).tmod ((n : ℤ) - 1) + 1).toNat = c % (n - 1) + 1 := by
    rw [show (n : ℤ) - 1 = ((n - 1 : ℕ) : ℤ) by omega, Int.tmod_eq_emod_of_nonneg (by omega)]
    omega
  simp only [drawSolinas, solinasOf, bits, nonneg, several, if_false, reduced, Int.toNat_natCast]
  congr 3
  split_ifs <;> omega

theorem solinasOf_shaped (large : 3 ≤ rbits) (coin2 coin1 coin0 : ℕ) :
    (solinasOf rbits coin2 coin1 coin0).Shaped rbits where
  bits := by
    simp only [solinasOf]
    split_ifs <;> omega
  positive := Nat.succ_pos _
  below := by
    have bound : 2 ≤ (solinasOf rbits coin2 coin1 coin0).exp2 := by
      simp only [solinasOf]
      split_ifs <;> omega
    have reduced := Nat.mod_lt coin1 (show 0 < (solinasOf rbits coin2 coin1 coin0).exp2 - 1 by omega)
    change coin1 % ((solinasOf rbits coin2 coin1 coin0).exp2 - 1) + 1 < _
    omega
  sign0 := by
    simp only [solinasOf]
    split_ifs <;> simp
  form := rfl

/-- Every shape is drawn. -/
theorem exists_solinasOf {draw : SolinasDraw} (shaped : draw.Shaped rbits) :
    ∃ coin2 coin1 coin0, solinasOf rbits coin2 coin1 coin0 = draw := by
  obtain ⟨exp2, exp1, sign1, sign0, r⟩ := draw
  obtain ⟨bits, positive, below, signs, form⟩ := shaped
  simp only at bits positive below signs form
  subst form
  have reduced : (exp1 - 1) % (exp2 - 1) + 1 = exp1 := by
    rw [Nat.mod_eq_of_lt (by omega), Nat.sub_add_cancel positive]
  obtain ⟨coin2, first⟩ : ∃ coin2 : ℕ, (if coin2 % 2 ≠ 0 then (1 : ℤ) else -1) = sign1 ∧
      (if coin2 % 2 ≠ 0 then rbits - 1 else rbits).toNat = exp2 := by
    rcases bits with ⟨rfl, bits⟩ | ⟨rfl, bits⟩
    · exact ⟨1, rfl, by simp only [Nat.one_mod, ne_eq, one_ne_zero, not_false_eq_true, if_true]; omega⟩
    · exact ⟨0, rfl, by simp only [Nat.zero_mod, ne_eq, not_true_eq_false, if_false]; omega⟩
  obtain ⟨coin0, last⟩ : ∃ coin0 : ℕ, (if coin0 % 2 ≠ 0 then (1 : ℤ) else -1) = sign0 := by
    rcases signs with rfl | rfl
    · exact ⟨1, rfl⟩
    · exact ⟨0, rfl⟩
  refine ⟨coin2, exp1 - 1, coin0, ?_⟩
  simp only [solinasOf, first.1, first.2, last, reduced]

end Draws

section Rounds

variable {rbits : ℤ} {bit : ℕ} {src : RandomSource W} {h q : ℤ}

/-- A try that succeeds has taken a number of `bit + 1` bits at most. -/
theorem tryCofactors_found (positive : 0 < bit) {candidate : ℤ → ℤ × ℤ} {tries : ℕ} {w w' : W}
    (found : tryCofactors src bit candidate tries w = (some (h, q), w')) :
    ∃ k : ℕ, k < 2 ^ (bit + 1) ∧ candidate k = (h, q) ∧ mpzProbabPrimeP q = true := by
  induction tries generalizing w with
  | zero =>
    rw [tryCofactors, Prod.mk.injEq] at found
    cases found.1
  | succ tries ih =>
    rw [tryCofactors] at found
    obtain ⟨k, small, drawn⟩ := pbcMpzRandom_two_pow_lt src.bytes positive w
    by_cases prime : mpzProbabPrimeP (candidate (pbcMpzRandom src.bytes ((2 ^ bit : ℕ) : ℤ) w).1).2 = true
    · simp only [prime, if_true, Prod.mk.injEq, Option.some.injEq] at found
      rw [drawn] at found prime
      refine ⟨k, small, found.1, ?_⟩
      rwa [found.1] at prime
    · simp only [prime, if_false, Bool.false_eq_true] at found
      exact ih found

/-- A round goes on, or ends with what it has found. -/
theorem searchRounds_succ (bit : ℕ) (src : RandomSource W) (large : 3 ≤ rbits) (candidate : ℤ → ℤ → ℤ × ℤ) (fuel : ℕ) (w : W) :
    ∃ draw w', draw.Shaped rbits ∧ drawSolinas src rbits w = .ok (draw, w') ∧
      searchRounds src rbits bit candidate (fuel + 1) w =
        if mpzProbabPrimeP draw.r then
          match tryCofactors src bit (candidate draw.r) 10 w' with
          | (some (h, q), w) => .ok (some (draw, h, q), w)
          | (none, w) => searchRounds src rbits bit candidate fuel w
        else searchRounds src rbits bit candidate fuel w' := by
  refine ⟨_, _, solinasOf_shaped large _ _ _, drawSolinas_ok large src w, ?_⟩
  rw [searchRounds, drawSolinas_ok large]
  rfl

/-- A search never faults from three bits on. -/
theorem searchRounds_ok (bit : ℕ) (src : RandomSource W) (large : 3 ≤ rbits) (candidate : ℤ → ℤ → ℤ × ℤ) (fuel : ℕ) (w : W) :
    ∃ found w', searchRounds src rbits bit candidate fuel w = .ok (found, w') := by
  induction fuel generalizing w with
  | zero => exact ⟨none, w, rfl⟩
  | succ fuel ih =>
    obtain ⟨draw, w₁, -, -, round⟩ := searchRounds_succ bit src large candidate fuel w
    rw [round]
    by_cases prime : mpzProbabPrimeP draw.r = true
    · rw [if_pos prime]
      rcases tryCofactors src bit (candidate draw.r) 10 w₁ with ⟨_ | ⟨h, q⟩, w₂⟩
      · exact ih w₂
      · exact ⟨_, _, rfl⟩
    · rw [if_neg prime]
      exact ih w₁

/-- What a search finds. -/
structure Found (rbits : ℤ) (bit : ℕ) (candidate : ℤ → ℤ → ℤ × ℤ) (draw : SolinasDraw) (h q : ℤ) :
    Prop where
  shaped : draw.Shaped rbits
  prime : mpzProbabPrimeP draw.r = true
  cofactor : ∃ k : ℕ, k < 2 ^ (bit + 1) ∧ candidate draw.r k = (h, q)
  field : mpzProbabPrimeP q = true

theorem searchRounds_found (large : 3 ≤ rbits) (positive : 0 < bit) {candidate : ℤ → ℤ → ℤ × ℤ}
    {fuel : ℕ} {w w' : W} {draw : SolinasDraw}
    (found : searchRounds src rbits bit candidate fuel w = .ok (some (draw, h, q), w')) :
    Found rbits bit candidate draw h q := by
  induction fuel generalizing w with
  | zero => cases found
  | succ fuel ih =>
    obtain ⟨draw', w₁, shaped, -, round⟩ :=
      searchRounds_succ bit src large candidate fuel w
    rw [round] at found
    by_cases prime : mpzProbabPrimeP draw'.r = true
    · rw [if_pos prime] at found
      rcases tried : tryCofactors src bit (candidate draw'.r) 10 w₁ with ⟨_ | ⟨h', q'⟩, w₂⟩
      · rw [tried] at found
        exact ih found
      · rw [tried] at found
        cases found
        obtain ⟨k, small, candidate, field⟩ := tryCofactors_found positive tried
        exact ⟨shaped, prime, ⟨k, small, candidate⟩, field⟩
    · rw [if_neg prime] at found
      exact ih found

/-- A source whose `rand` reads a list, and whose bytes are the same in every round. -/
def listSource (block : List UInt8) : RandomSource (List ℕ) where
  rand w := (w.headD 0, w.tail)
  bytes := constantBytes _ block

/-- **The results of a search**, over every source of random numbers. -/
theorem searchRounds_iff (large : 3 ≤ rbits) (positive : 0 < bit) (candidate : ℤ → ℤ → ℤ × ℤ)
    (draw : SolinasDraw) (h q : ℤ) :
    (∃ (W : Type) (src : RandomSource W) (w w' : W) (fuel : ℕ),
      searchRounds src rbits bit candidate fuel w = .ok (some (draw, h, q), w')) ↔
      Found rbits bit candidate draw h q := by
  constructor
  · rintro ⟨W, src, w, w', fuel, found⟩
    exact searchRounds_found large positive found
  · rintro ⟨shaped, prime, ⟨k, small, candidateEq⟩, field⟩
    obtain ⟨coin2, coin1, coin0, drawn⟩ := exists_solinasOf shaped
    obtain ⟨block, reached⟩ := pbcMpzRandom_two_pow_reaches (W := List ℕ) positive small
    refine ⟨List ℕ, listSource block, [coin2, coin1, coin0],
      (pbcMpzRandom (constantBytes _ block) ((2 ^ bit : ℕ) : ℤ) []).2, 1, ?_⟩
    have round : drawSolinas (listSource block) rbits [coin2, coin1, coin0] = .ok (draw, []) := by
      rw [drawSolinas_ok large, ← drawn]
      rfl
    have tried : tryCofactors (listSource block) bit (candidate draw.r) 10 [] =
        (some (h, q), (pbcMpzRandom (constantBytes _ block) ((2 ^ bit : ℕ) : ℤ) []).2) := by
      have value : (candidate draw.r (pbcMpzRandom (listSource block).bytes ((2 ^ bit : ℕ) : ℤ) []).1) =
          (h, q) := by
        rw [← candidateEq]
        exact congrArg _ (reached [])
      rw [tryCofactors, value, if_pos field]
      rfl
    rw [searchRounds, round]
    change (if mpzProbabPrimeP draw.r then _ else _) = _
    rw [if_pos prime, tried]

end Rounds

section Generators

variable {rbits qbits : ℤ}

theorem SolinasDraw.Shaped.pos {draw : SolinasDraw} (shaped : draw.Shaped rbits) : 0 < draw.r := by
  have two : (2 : ℤ) ≤ 2 ^ draw.exp1 := by
    exact_mod_cast Nat.le_self_pow shaped.positive.ne' 2
  have double : (2 : ℤ) ^ draw.exp1 * 2 ≤ 2 ^ draw.exp2 := by
    rw [← pow_succ]
    exact pow_le_pow_right₀ (by decide) shaped.below
  rw [shaped.form]
  rcases shaped.bits with ⟨sign1, -⟩ | ⟨sign1, -⟩ <;> rcases shaped.sign0 with sign0 | sign0 <;>
    · rw [sign1, sign0]
      omega

/-- From four bits on the prime is at least seven. -/
theorem SolinasDraw.Shaped.seven_le {draw : SolinasDraw} (shaped : draw.Shaped rbits)
    (large : 4 ≤ rbits) : 7 ≤ draw.r := by
  have two : (2 : ℤ) ≤ 2 ^ draw.exp1 := by
    exact_mod_cast Nat.le_self_pow shaped.positive.ne' 2
  have double : (2 : ℤ) ^ draw.exp1 * 2 ≤ 2 ^ draw.exp2 := by
    rw [← pow_succ]
    exact pow_le_pow_right₀ (by decide) shaped.below
  have sign0 : -1 ≤ draw.sign0 := by rcases shaped.sign0 with sign0 | sign0 <;> omega
  rw [shaped.form]
  rcases shaped.bits with ⟨sign1, bits⟩ | ⟨sign1, bits⟩
  · have eight : (2 : ℤ) ^ 3 ≤ 2 ^ draw.exp2 := pow_le_pow_right₀ (by decide) (by omega)
    rw [sign1]
    omega
  · have sixteen : (2 : ℤ) ^ 4 ≤ 2 ^ draw.exp2 := pow_le_pow_right₀ (by decide) (by omega)
    rw [sign1]
    omega

/-- The parameter sets that `a_param_gen` can return. -/
structure AParam.Generated (rbits qbits : ℤ) (param : AParam) : Prop where
  shaped : (SolinasDraw.mk param.exp2 param.exp1 param.sign1 param.sign0 param.r).Shaped rbits
  prime : param.r.Prime
  cofactor : ∃ k < 2 ^ (aCofactorBits rbits qbits + 1), param.h = 12 * k
  order : param.r * param.h = param.q + 1
  field : param.q.Prime

/-- A generated set is what the pairing of type A asks for. -/
theorem AParam.Generated.valid {param : AParam} (generated : param.Generated rbits qbits)
    (large : 4 ≤ rbits) : param.Valid where
  residue := by
    obtain ⟨k, -, cofactor⟩ := generated.cofactor
    have order := generated.order
    rw [cofactor, show param.r * (12 * k) = 4 * (3 * (param.r * k)) by ring] at order
    omega
  prime := generated.prime
  form := generated.shaped.form
  sign1 := generated.shaped.bits.imp And.left And.left
  sign0 := generated.shaped.sign0
  large := by
    have seven : (7 : ℤ) ≤ param.r := generated.shaped.seven_le large
    exact_mod_cast seven
  cofactor := generated.order

/-- A generator returns what its search finds, in the fields of its parameters. -/
theorem map_searchRounds_iff {α : Type} (large : 3 ≤ rbits) {bit : ℕ} (positive : 0 < bit)
    (candidate : ℤ → ℤ → ℤ × ℤ) (fields : SolinasDraw × ℤ × ℤ → α) (param : α) :
    (∃ (W : Type) (src : RandomSource W) (w w' : W) (fuel : ℕ),
      (do
        let out ← searchRounds src rbits bit candidate fuel w
        .ok (out.1.map fields, out.2) : Except SearchFault (Option α × W)) = .ok (some param, w')) ↔
      ∃ draw h q, Found rbits bit candidate draw h q ∧ fields (draw, h, q) = param := by
  constructor
  · rintro ⟨W, src, w, w', fuel, result⟩
    obtain ⟨found, w₁, searched⟩ := searchRounds_ok bit src large candidate fuel w
    rw [searched] at result
    change Except.ok (found.map fields, w₁) = _ at result
    rw [Except.ok.injEq, Prod.mk.injEq, Option.map_eq_some_iff] at result
    obtain ⟨⟨⟨draw, h, q⟩, rfl, same⟩, -⟩ := result
    exact ⟨draw, h, q, searchRounds_found large positive searched, same⟩
  · rintro ⟨draw, h, q, found, rfl⟩
    obtain ⟨W, src, w, w', fuel, searched⟩ :=
      (searchRounds_iff large positive candidate draw h q).2 found
    exact ⟨W, src, w, w', fuel, by rw [searched]; rfl⟩

theorem aCofactorBits_pos : 0 < aCofactorBits rbits qbits := by
  simp only [aCofactorBits]
  split_ifs <;> omega

theorem eCofactorBits_pos : 0 < eCofactorBits rbits qbits := by
  simp only [eCofactorBits]
  split_ifs <;> omega

/-- **`a_param_gen`.** Over every source of random numbers and any number of rounds, the results
are exactly these parameter sets, and from four bits on the pairing can be computed with them. -/
theorem aParamGen_iff (large : 3 ≤ rbits) (param : AParam) :
    ((∃ (W : Type) (src : RandomSource W) (w w' : W) (fuel : ℕ),
      aParamGen src rbits qbits fuel w = .ok (some param, w')) ↔ param.Generated rbits qbits) ∧
      (4 ≤ rbits → param.Generated rbits qbits → param.Valid) := by
  refine ⟨(map_searchRounds_iff large aCofactorBits_pos aCandidate _ param).trans ⟨?_, ?_⟩,
    fun four generated => generated.valid four⟩
  · rintro ⟨⟨exp2, exp1, sign1, sign0, r⟩, h, q, found, rfl⟩
    obtain ⟨r, rfl⟩ := Int.eq_ofNat_of_zero_le found.shaped.pos.le
    obtain ⟨k, small, tried⟩ := found.cofactor
    simp only [aCandidate, Prod.mk.injEq] at tried
    obtain ⟨rfl, rfl⟩ := tried
    have field : ((k : ℤ) * 12 * r - 1).natAbs.Prime := of_decide_eq_true found.field
    -- a cofactor of zero would make the field `-1`
    have positive : 0 < k * 12 * r := by
      rcases Nat.eq_zero_or_pos (k * 12 * r) with zero | positive
      · rw [show (k : ℤ) * 12 * r = ((k * 12 * r : ℕ) : ℤ) by push_cast; rfl, zero] at field
        exact absurd field (by decide)
      · exact positive
    have size : (k : ℤ) * 12 * r - 1 = ((k * 12 * r - 1 : ℕ) : ℤ) := by
      rw [Nat.cast_sub positive]
      push_cast
      rfl
    rw [size, Int.natAbs_natCast] at field
    refine ⟨found.shaped, of_decide_eq_true found.prime, ⟨k, small, ?_⟩, ?_, ?_⟩
    · change ((k : ℤ) * 12).toNat = _
      omega
    · change (r : ℤ).toNat * ((k : ℤ) * 12).toNat = ((k : ℤ) * 12 * r - 1).toNat + 1
      rw [size, Int.toNat_natCast, Int.toNat_natCast, Nat.sub_add_cancel positive,
        show (k : ℤ) * 12 = ((k * 12 : ℕ) : ℤ) by push_cast; rfl, Int.toNat_natCast]
      ring
    · change ((k : ℤ) * 12 * r - 1).toNat.Prime
      rwa [size]
  · rintro ⟨shaped, prime, ⟨k, small, cofactor⟩, order, field⟩
    refine ⟨⟨param.exp2, param.exp1, param.sign1, param.sign0, param.r⟩, param.h, param.q,
      ⟨shaped, decide_eq_true prime, ⟨k, small, ?_⟩, decide_eq_true field⟩, ?_⟩
    · have size : (param.r : ℤ) * param.h = param.q + 1 := by exact_mod_cast order
      rw [aCandidate, Prod.mk.injEq, cofactor]
      rw [cofactor] at size
      push_cast at size ⊢
      constructor
      · ring
      · linear_combination size
    · simp only [Int.toNat_natCast]

/-- A prime of three bits in a field of seven. -/
theorem aParamGen_iff_eightyThree :
    ((∃ (W : Type) (src : RandomSource W) (w w' : W) (fuel : ℕ),
      aParamGen src 4 10 fuel w = .ok (some ⟨83, 7, 12, 4, 3, -1, -1⟩, w')) ↔
        AParam.Generated 4 10 ⟨83, 7, 12, 4, 3, -1, -1⟩) ∧
      (4 ≤ (4 : ℤ) → AParam.Generated 4 10 ⟨83, 7, 12, 4, 3, -1, -1⟩ →
        AParam.Valid ⟨83, 7, 12, 4, 3, -1, -1⟩) :=
  aParamGen_iff (by decide) _

/-- The numbers that `e_param_gen` can choose. -/
structure ENumbers.Generated (rbits qbits : ℤ) (param : ENumbers) : Prop where
  shaped : (SolinasDraw.mk param.exp2 param.exp1 param.sign1 param.sign0 param.r).Shaped rbits
  prime : param.r.Prime
  cofactor : ∃ k < 2 ^ (eCofactorBits rbits qbits + 1), param.h = 3 * k ^ 2
  size : param.q = param.h * param.r ^ 2 + 1
  field : param.q.Prime

/-- **`e_param_gen`.** Over every source of random numbers and any number of rounds, the numbers
it goes on with are exactly these. -/
theorem eParamGenNumbers_iff (large : 3 ≤ rbits) (param : ENumbers) :
    (∃ (W : Type) (src : RandomSource W) (w w' : W) (fuel : ℕ),
      eParamGenNumbers src rbits qbits fuel w = .ok (some param, w')) ↔
      param.Generated rbits qbits := by
  refine (map_searchRounds_iff large eCofactorBits_pos eCandidate _ param).trans ⟨?_, ?_⟩
  · rintro ⟨⟨exp2, exp1, sign1, sign0, r⟩, h, q, found, rfl⟩
    obtain ⟨r, rfl⟩ := Int.eq_ofNat_of_zero_le found.shaped.pos.le
    obtain ⟨k, small, tried⟩ := found.cofactor
    simp only [eCandidate, Prod.mk.injEq] at tried
    obtain ⟨rfl, rfl⟩ := tried
    have cofactor : (k : ℤ) * k * 3 = ((3 * k ^ 2 : ℕ) : ℤ) := by
      push_cast
      ring
    have size : (r : ℤ) * r * (k * k * 3) + 1 = ((3 * k ^ 2 * r ^ 2 + 1 : ℕ) : ℤ) := by
      push_cast
      ring
    have field : ((r : ℤ) * r * (k * k * 3) + 1).natAbs.Prime := of_decide_eq_true found.field
    rw [size, Int.natAbs_natCast] at field
    refine ⟨found.shaped, of_decide_eq_true found.prime, ⟨k, small, ?_⟩, ?_, ?_⟩
    · change ((k : ℤ) * k * 3).toNat = _
      rw [cofactor, Int.toNat_natCast]
    · change ((r : ℤ) * r * (k * k * 3) + 1).toNat = ((k : ℤ) * k * 3).toNat * (r : ℤ).toNat ^ 2 + 1
      rw [size, cofactor, Int.toNat_natCast, Int.toNat_natCast, Int.toNat_natCast]
    · change ((r : ℤ) * r * (k * k * 3) + 1).toNat.Prime
      rwa [size]
  · rintro ⟨shaped, prime, ⟨k, small, cofactor⟩, size, field⟩
    refine ⟨⟨param.exp2, param.exp1, param.sign1, param.sign0, param.r⟩, param.h, param.q,
      ⟨shaped, decide_eq_true prime, ⟨k, small, ?_⟩, decide_eq_true field⟩, ?_⟩
    · rw [eCandidate, Prod.mk.injEq, size, cofactor]
      push_cast
      constructor
      · ring
      · ring
    · simp only [Int.toNat_natCast]

/-- The same prime, with a cofactor of 432. -/
theorem eParamGenNumbers_iff_seven :
    (∃ (W : Type) (src : RandomSource W) (w w' : W) (fuel : ℕ),
      eParamGenNumbers src 4 10 fuel w = .ok (some ⟨21169, 7, 432, 4, 3, -1, -1⟩, w')) ↔
      ENumbers.Generated 4 10 ⟨21169, 7, 432, 4, 3, -1, -1⟩ :=
  eParamGenNumbers_iff (by decide) _

end Generators

end Pbc.Ecc
