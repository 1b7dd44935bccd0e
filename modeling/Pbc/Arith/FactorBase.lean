import Pbc.Arith.Elimination
import Pbc.Arith.Garner
import Pbc.Arith.SmoothRelations

/-!
# The logarithms of the factor base

A smooth power of a generator is a true relation between the logarithms of the primes of the
table, modulo each factor of `q - 1`. The search ends with a full matrix for each factor, so the
back substitution and the recombination give the logarithms modulo `q - 1`.
-/

open Pbc.Algebra Pbc.Gmp

namespace Pbc.Arith

variable {q l r : ℕ} [prime : Fact q.Prime] {g : ℤ}

/-- The logarithms of the primes of the table, modulo a factor of `q - 1`. -/
noncomputable def baseLog (q l : ℕ) (g : ℤ) (i : ℕ) : ZMod l :=
  (dlog (g : ZMod q) (ithPrime i : ZMod q) : ℕ)

/-- The indices of the table whose primes are units modulo `q`. -/
def InBase (q r i : ℕ) : Prop := i < r ∧ (ithPrime i : ZMod q) ≠ 0

/-- A product of powers of primes is a power by the sum of their logarithms. -/
private theorem cellProduct_pow (generates : Generates (g : ZMod q)) {cells : List Cell}
    (positive : ∀ c ∈ cells, 0 < c.data) (units : ∀ c ∈ cells, (ithPrime c.ind : ZMod q) ≠ 0) :
    ∃ e : ℕ, (cellProduct cells : ZMod q) = (g : ZMod q) ^ e ∧
      (e : ZMod l) = cellSum (baseLog q l g) cells := by
  induction cells with
  | nil => exact ⟨0, by simp [cellProduct], by simp⟩
  | cons c cells ih =>
    obtain ⟨first, positive⟩ := List.forall_mem_cons.mp positive
    obtain ⟨unit, units⟩ := List.forall_mem_cons.mp units
    obtain ⟨e, product, sum⟩ := ih positive units
    have power : (g : ZMod q) ^ dlog (g : ZMod q) (ithPrime c.ind : ZMod q) = ithPrime c.ind :=
      generates.pow_dlog unit
    refine ⟨c.data.toNat * dlog (g : ZMod q) (ithPrime c.ind : ZMod q) + e, ?_, ?_⟩
    · rw [cellProduct, List.map_cons, List.prod_cons, ← cellProduct, Nat.cast_mul, product,
        Nat.cast_pow, pow_add, mul_comm c.data.toNat, pow_mul, power]
    · have value : ((c.data.toNat : ℕ) : ZMod l) = (c.data : ZMod l) := by
        rw [← Int.cast_natCast, Int.toNat_of_nonneg first.le]
      rw [Nat.cast_add, Nat.cast_mul, value, sum, cellSum_cons, baseLog]

/-- A smooth power of the generator is a true relation. -/
private theorem relation_sum (generates : Generates (g : ZMod q)) (unit : (g : ZMod q) ≠ 0)
    (divides : l ∣ q - 1) {j n z : ℕ} {rel : List Cell} (between : Between r 0 j rel)
    (product : z = cellProduct rel) (small : z < q) (positive : 0 < z)
    (power : (z : ZMod q) = (g : ZMod q) ^ n) :
    (∀ c ∈ rel, InBase q r c.ind) ∧ (n : ZMod l) = cellSum (baseLog q l g) rel := by
  have units : ∀ c ∈ rel, (ithPrime c.ind : ZMod q) ≠ 0 := by
    intro c member zero
    have factor : ithPrime c.ind ∣ z := by
      refine product ▸ (dvd_pow_self _ ?_).trans (List.dvd_prod (List.mem_map_of_mem member))
      have := between.positive c member
      omega
    have below := Nat.le_of_dvd positive factor
    have whole := (ZMod.natCast_eq_zero_iff _ _).mp zero
    have := Nat.le_of_dvd (ithPrime_prime c.ind).pos whole
    omega
  refine ⟨fun c member => ⟨(between.range c member).2.2, units c member⟩, ?_⟩
  obtain ⟨e, power', sum⟩ := cellProduct_pow (l := l) generates between.positive units
  rw [← sum, ZMod.natCast_eq_natCast_iff]
  have same : (g : ZMod q) ^ n = (g : ZMod q) ^ e := by rw [← power, product, power']
  have modulo := (generates.pow_eq_pow_iff unit).mp same
  rw [ZMod.card] at modulo
  exact modulo.of_dvd divides

/-- A matrix that holds true congruences modulo a prime factor of `q - 1`. -/
def Matrix.Sound (q r : ℕ) (g : ℤ) (M : Matrix) : Prop :=
  ∃ l : ℕ, l.Prime ∧ l ∣ q - 1 ∧ M.Holds l r (InBase q r) (baseLog q l g)

/-- The rows of all matrices. -/
def filledRows (matrix : List Matrix) : ℕ := (matrix.map Matrix.filled).sum

/-- The state of the search: sound matrices for the factors, and a count of their rows. -/
structure SearchSound (q r : ℕ) (g : ℤ) (orders : List ℤ) (matrix : List Matrix) (count : ℕ) : Prop where
  sound : ∀ M ∈ matrix, M.Sound q r g
  orders : matrix.map Matrix.order = orders
  count : filledRows matrix = count

variable {undefined : ℤ → ℤ → ℤ}

/-- One relation for all factors. -/
private theorem addRelations_sound (generates : Generates (g : ZMod q)) (unit : (g : ZMod q) ≠ 0)
    {fuel j n z count count' : ℕ} {rel : List Cell} {matrix matrix' : List Matrix}
    (between : Between r 0 j rel) (product : z = cellProduct rel) (small : z < q) (positive : 0 < z)
    (power : (z : ZMod q) = (g : ZMod q) ^ n) (sound : ∀ M ∈ matrix, M.Sound q r g)
    (run : addRelations undefined fuel n rel matrix count = some (matrix', count')) :
    (∀ M ∈ matrix', M.Sound q r g) ∧ matrix'.map Matrix.order = matrix.map Matrix.order ∧
      filledRows matrix' + count = filledRows matrix + count' := by
  induction matrix generalizing matrix' count count' with
  | nil =>
    obtain ⟨rfl, rfl⟩ := Prod.mk.inj (Option.some.inj run)
    exact ⟨sound, rfl, rfl⟩
  | cons M matrix ih =>
    obtain ⟨⟨l, prime', divides, holds⟩, others⟩ := List.forall_mem_cons.mp sound
    have := Fact.mk prime'
    obtain ⟨⟨M', middle⟩, first, run⟩ := Option.bind_eq_some_iff.mp run
    obtain ⟨⟨rest, last⟩, second, equal⟩ := Option.map_eq_some_iff.mp run
    obtain ⟨rfl, rfl⟩ := Prod.mk.inj equal
    obtain ⟨fine, sum⟩ := relation_sum (l := l) generates unit divides between product small
      positive power
    have value : (((n : ℤ) % M.order : ℤ) : ZMod l) = cellSum (baseLog q l g) (reduceCells M.order rel) := by
      rw [holds.order, ZMod.intCast_mod, Int.cast_natCast, sum, reduceCells_sum]
    have reduced : ReducedCells l (InBase q r) (reduceCells M.order rel) := by
      rw [holds.order]
      exact reduceCells_reduced prime'.pos between.sorted fine
    obtain ⟨holds', rows⟩ := holds.addRelation (fun i inside => inside.1) reduced value first
    obtain ⟨sound', orders, rows'⟩ := ih others second
    refine ⟨List.forall_mem_cons.mpr ⟨⟨l, prime', divides, holds'⟩, sound'⟩, ?_, ?_⟩
    · rw [List.map_cons, List.map_cons, orders, holds.order, holds'.order]
    · simp only [filledRows, List.map_cons, List.sum_cons] at rows rows' ⊢
      omega

/-- The next power of the generator. -/
private theorem next_power (unit : (g : ZMod q) ≠ 0) {n z : ℕ} (power : (z : ZMod q) = (g : ZMod q) ^ n) :
    ∃ z' : ℕ, (z : ℤ) * g % q = z' ∧ 0 < z' ∧ z' < q ∧ (z' : ZMod q) = (g : ZMod q) ^ (n + 1) := by
  have positive : 0 < (q : ℤ) := Int.natCast_pos.mpr prime.out.pos
  have lower := Int.emod_nonneg ((z : ℤ) * g) positive.ne'
  obtain ⟨z', value⟩ := Int.eq_ofNat_of_zero_le lower
  have cast : (z' : ZMod q) = (g : ZMod q) ^ (n + 1) := by
    rw [← Int.cast_natCast, ← value, ZMod.intCast_mod, Int.cast_mul, Int.cast_natCast, power, pow_succ]
  have below := Int.emod_lt_of_pos ((z : ℤ) * g) positive
  refine ⟨z', value, Nat.pos_of_ne_zero ?_, by omega, cast⟩
  rintro rfl
  rw [Nat.cast_zero] at cast
  exact pow_ne_zero _ unit cast.symm

/-- A search that ends leaves sound matrices with all rows. -/
private theorem searchRelations_sound (generates : Generates (g : ZMod q)) (unit : (g : ZMod q) ≠ 0)
    {fuel n z count : ℕ} {orders : List ℤ} {matrix matrix' : List Matrix}
    (power : (z : ZMod q) = (g : ZMod q) ^ n) (sound : SearchSound q r g orders matrix count)
    (run : searchRelations undefined (primeTable r) g q fuel z n matrix count = some matrix') :
    ∃ count', SearchSound q r g orders matrix' count' ∧ r * matrix'.length ≤ count' := by
  induction fuel generalizing z n matrix count with
  | zero => exact absurd run nofun
  | succ fuel ih =>
    obtain ⟨z', value, positive, small, power'⟩ := next_power unit power
    have length : (primeTable r).length = r := by
      rw [primeTable_eq, List.length_map, List.length_range']
    rw [searchRelations, value] at run
    obtain ⟨divided, first, run⟩ := Option.bind_eq_some_iff.mp run
    obtain ⟨⟨next, count'⟩, second, run⟩ := Option.bind_eq_some_iff.mp run
    have sound' : SearchSound q r g orders next count' := by
      cases divided with
      | found rel =>
        obtain ⟨j, between, product⟩ := divideTable_found positive first
        have index : (n : ℤ) + 1 = (n + 1 : ℕ) := by push_cast; rfl
        rw [useRelation, index] at second
        obtain ⟨all, same, rows⟩ := addRelations_sound generates unit between product small positive
          power' sound.sound second
        refine ⟨all, same.trans sound.orders, ?_⟩
        have := sound.count
        omega
      | rest z1 rel =>
        obtain ⟨rfl, rfl⟩ := Prod.mk.inj (Option.some.inj second)
        exact sound
    dsimp only at run
    rw [length] at run
    split at run
    · exact ih power' sound' (by exact_mod_cast run)
    · next enough =>
      obtain rfl := Option.some.inj run
      exact ⟨count', sound', not_lt.mp enough⟩

omit prime in
/-- Enough rows in all are all rows of each matrix. -/
theorem filled_of_enough {matrix : List Matrix} (most : ∀ M ∈ matrix, M.filled ≤ r)
    (enough : r * matrix.length ≤ filledRows matrix) : ∀ M ∈ matrix, M.filled = r := by
  induction matrix with
  | nil => exact List.forall_mem_nil _
  | cons M matrix ih =>
    obtain ⟨first, most⟩ := List.forall_mem_cons.mp most
    have bound : filledRows matrix ≤ r * matrix.length := by
      have sum := List.sum_le_card_nsmul (matrix.map Matrix.filled) r (by
        intro n member
        obtain ⟨N, inside, rfl⟩ := List.mem_map.mp member
        exact most N inside)
      rwa [List.length_map, smul_eq_mul, mul_comm] at sum
    rw [filledRows, List.map_cons, List.sum_cons, ← filledRows, List.length_cons, mul_add,
      mul_one] at enough
    exact List.forall_mem_cons.mpr ⟨by omega, ih most (by omega)⟩

omit prime in
/-- Sound matrices have at most as many rows as there are indices. -/
private theorem SearchSound.filled_le {orders : List ℤ} {matrix : List Matrix} {count : ℕ}
    (sound : SearchSound q r g orders matrix count) : ∀ M ∈ matrix, M.filled ≤ r := by
  intro M member
  obtain ⟨l, -, -, holds⟩ := sound.sound M member
  exact holds.length ▸ List.countP_le_length

omit prime in
/-- The search starts without rows. -/
theorem rowAt_empty (order : ℤ) (r i : ℕ) :
    (⟨order, List.replicate r none, 0⟩ : Matrix).rowAt i = none := by
  rw [Matrix.rowAt, List.getElem?_replicate]
  split
  · rfl
  · rfl

omit prime in
theorem filledRows_emptyMatrices (r : ℕ) (fac : List (ℤ × ℕ)) :
    filledRows (emptyMatrices r fac) = 0 := by
  rw [filledRows, emptyMatrices, List.map_map, List.sum_eq_zero]
  intro n member
  obtain ⟨f, -, rfl⟩ := List.mem_map.mp member
  exact List.countP_eq_zero.mpr fun entry inside => by
    rw [List.eq_of_mem_replicate inside]
    exact Bool.false_ne_true

/-- The list holds each prime factor of `q - 1` once, with multiplicity one. -/
def AllFactors (q : ℕ) (fac : List (ℤ × ℕ)) : Prop :=
  fac.Perm ((q - 1).primeFactorsList.map fun l : ℕ => ((l : ℤ), 1))

variable {fac : List (ℤ × ℕ)}

omit prime in
theorem AllFactors.mem (all : AllFactors q fac) {f : ℤ × ℕ} (member : f ∈ fac) :
    ∃ l : ℕ, f = ((l : ℤ), 1) ∧ l.Prime ∧ l ∣ q - 1 := by
  obtain ⟨l, factor, rfl⟩ := List.mem_map.mp (all.mem_iff.mp member)
  exact ⟨l, rfl, Nat.prime_of_mem_primeFactorsList factor, Nat.dvd_of_mem_primeFactorsList factor⟩

omit prime in
theorem AllFactors.coprime (all : AllFactors q fac) (squarefree : Squarefree (q - 1)) :
    (fac.map Prod.fst).Pairwise IsCoprime := by
  have order : (fac.map Prod.fst).Perm ((q - 1).primeFactorsList.map fun l : ℕ => (l : ℤ)) := by
    have perm := all.map Prod.fst
    rwa [List.map_map] at perm
  refine (order.pairwise_iff fun coprime => IsCoprime.symm coprime).mpr (List.pairwise_map.mpr ?_)
  have distinct := (Nat.squarefree_iff_nodup_primeFactorsList squarefree.ne_zero).mp squarefree
  refine List.Pairwise.imp_of_mem (fun member member' apart => ?_) distinct
  refine Nat.isCoprime_iff_coprime.mpr ?_
  exact (Nat.coprime_primes (Nat.prime_of_mem_primeFactorsList member)
    (Nat.prime_of_mem_primeFactorsList member')).mpr apart

omit prime in
private theorem emptyMatrices_sound (all : AllFactors q fac) :
    SearchSound q r g (fac.map Prod.fst) (emptyMatrices r fac) 0 := by
  refine ⟨fun M member => ?_, ?_, filledRows_emptyMatrices r fac⟩
  · obtain ⟨f, inside, rfl⟩ := List.mem_map.mp member
    obtain ⟨l, rfl, prime', divides⟩ := all.mem inside
    refine ⟨l, prime', divides, rfl, List.length_replicate, fun i rp found => ?_⟩
    rw [rowAt_empty] at found
    cases found
  · rw [emptyMatrices, List.map_map]
    rfl

/-- The recombination of the logarithms modulo all factors. -/
private theorem logAt_modEq (undefined : ℤ → ℤ → ℤ) {matrix : List Matrix} {i : ℕ} (squarefree : Squarefree (q - 1))
    (all : AllFactors q fac) (orders : matrix.map Matrix.order = fac.map Prod.fst)
    (sound : ∀ M ∈ matrix, M.Sound q r g) (full : ∀ M ∈ matrix, M.filled = r) (small : i < r) :
    logAt undefined fac (matrix.map Matrix.backSubstitute) i ≡
      dlog (g : ZMod q) (ithPrime i : ZMod q) [ZMOD (q - 1 : ℕ)] := by
  have moduli : fac.map (fun f => f.1 ^ f.2) = matrix.map Matrix.order := by
    rw [orders]
    refine List.map_congr_left fun f member => ?_
    obtain ⟨l, rfl, -⟩ := all.mem member
    exact pow_one _
  have residues : ((matrix.map Matrix.backSubstitute).map fun M => M.log i).zip
      (fac.map fun f => f.1 ^ f.2) = matrix.map fun M => (M.backSubstitute.log i, M.order) := by
    rw [moduli, List.map_map, List.zip_map']
    rfl
  have coprime : (matrix.map fun M => (M.backSubstitute.log i, M.order)).Pairwise
      fun v w => IsCoprime v.2 w.2 := by
    have pairs := all.coprime squarefree
    rw [← orders, List.pairwise_map] at pairs
    exact List.pairwise_map.mpr pairs
  have positive : ∀ v ∈ matrix.map (fun M => (M.backSubstitute.log i, M.order)), 0 < v.2 := by
    intro v member
    obtain ⟨M, inside, rfl⟩ := List.mem_map.mp member
    obtain ⟨l, prime', -, holds⟩ := sound M inside
    exact holds.order ▸ Int.natCast_pos.mpr prime'.pos
  have combined := crt_modEq undefined positive coprime
  rw [logAt, residues, Int.modEq_iff_dvd, ← Nat.prod_primeFactors_of_squarefree squarefree, Nat.cast_prod]
  refine Finset.prod_dvd_of_coprime (fun l factor l' factor' apart => ?_) (fun l factor => ?_)
  · refine Nat.isCoprime_iff_coprime.mpr ?_
    exact (Nat.coprime_primes (Nat.prime_of_mem_primeFactors factor)
      (Nat.prime_of_mem_primeFactors factor')).mpr apart
  · have listed : ((l : ℤ), 1) ∈ fac := by
      refine all.mem_iff.mpr (List.mem_map_of_mem ?_)
      exact Nat.mem_primeFactors_iff_mem_primeFactorsList.mp factor
    have order : (l : ℤ) ∈ matrix.map Matrix.order := orders ▸ List.mem_map_of_mem listed
    obtain ⟨M, inside, same⟩ := List.mem_map.mp order
    obtain ⟨l', prime', -, holds⟩ := sound M inside
    obtain rfl : l' = l := by exact_mod_cast holds.order.symm.trans same
    have value := holds.backSubstitute (full M inside) small
    have modulo := combined _ (List.mem_map_of_mem inside)
    rw [holds.order, ← ZMod.intCast_eq_intCast_iff, value, baseLog, ← Int.cast_natCast] at modulo
    exact (Int.modEq_iff_dvd).mp ((ZMod.intCast_eq_intCast_iff _ _ _).mp modulo)

/-- A full matrix has a row for every index, so all primes of the table are units. -/
private theorem units_of_filled {M : Matrix} (sound : M.Sound q r g) (full : M.filled = r) {i : ℕ}
    (small : i < r) : (ithPrime i : ZMod q) ≠ 0 := by
  obtain ⟨l, -, -, holds⟩ := sound
  obtain ⟨rp, -, row⟩ := holds.row_of_filled full small
  exact row.good_ind.2

/-- The logarithms of the factor base are right whenever the search for them ends. -/
theorem indexCalculusStep1_logs {fuel : ℕ} {ind : List ℤ} (odd : q ≠ 2)
    (squarefree : Squarefree (q - 1)) (all : AllFactors q fac) (generates : Generates (g : ZMod q))
    (run : indexCalculusStep1 undefined fuel r g q fac = some ind) :
    ind.length = r ∧ ∀ i < r, (g : ZMod q) ^ ind.getD i 0 = (Nat.nth Nat.Prime i : ZMod q) := by
  have more : 2 < q := lt_of_le_of_ne prime.out.two_le odd.symm
  have unit : (g : ZMod q) ≠ 0 := generates.ne_zero (by rwa [ZMod.card])
  rw [indexCalculusStep1] at run
  split at run
  · obtain ⟨matrix, search, rfl⟩ := Option.map_eq_some_iff.mp run
    rw [List.length_map, List.length_range]
    refine ⟨rfl, fun i small => ?_⟩
    obtain ⟨count, sound, enough⟩ :=
      searchRelations_sound (n := 0) (z := 1) generates unit (by simp) (emptyMatrices_sound all) search
    have full := filled_of_enough sound.filled_le (sound.count ▸ enough)
    have known : (ithPrime i : ZMod q) ≠ 0 := by
      obtain ⟨l, prime', divides⟩ := Nat.exists_prime_and_dvd (n := q - 1) (by omega)
      have listed : ((l : ℤ), 1) ∈ fac := all.mem_iff.mpr (List.mem_map_of_mem
        ((Nat.mem_primeFactorsList squarefree.ne_zero).mpr ⟨prime', divides⟩))
      have order : (l : ℤ) ∈ matrix.map Matrix.order := sound.orders ▸ List.mem_map_of_mem listed
      obtain ⟨M, inside, -⟩ := List.mem_map.mp order
      exact units_of_filled (sound.sound M inside) (full M inside) small
    have modulo := logAt_modEq undefined squarefree all sound.orders sound.sound full small
    have entry : ((List.range r).map (logAt undefined fac (matrix.map Matrix.backSubstitute))).getD i 0 =
        logAt undefined fac (matrix.map Matrix.backSubstitute) i := by
      rw [List.getD_eq_getElem _ _ (by rwa [List.length_map, List.length_range]), List.getElem_map,
        List.getElem_range]
    obtain ⟨c, difference⟩ := (Int.modEq_iff_dvd).mp modulo.symm
    have order : (g : ZMod q) ^ ((q - 1 : ℕ) : ℤ) = 1 := by
      rw [zpow_natCast, ZMod.pow_card_sub_one_eq_one unit]
    rw [entry, eq_add_of_sub_eq' difference, zpow_add₀ unit, zpow_mul, order, one_zpow, mul_one,
      zpow_natCast]
    exact generates.pow_dlog known
  · exact absurd run nofun

private theorem primeTable_two : primeTable 2 = [2, 3] := by
  have next : mpzNextprime (2 : ℕ) = (3 : ℕ) :=
    mpzNextprime_eq Nat.prime_three (by decide) fun l above below => by omega
  rw [Nat.cast_ofNat] at next
  rw [primeTable, primeEntries, primeEntries, primeEntries, next]
  rfl

theorem three_generates : Generates ((3 : ℤ) : ZMod 7) := by
  intro y nonzero
  have small : ∀ y : ZMod 7, y ≠ 0 → ∃ k : Fin 6, ((3 : ℤ) : ZMod 7) ^ (k : ℕ) = y := by decide
  obtain ⟨k, power⟩ := small y nonzero
  exact ⟨k, power⟩

private theorem factors_six : AllFactors 7 [(2, 1), (3, 1)] := by
  have list : [2, 3].Perm (7 - 1).primeFactorsList := by
    refine Nat.primeFactorsList_unique rfl fun p member => ?_
    rcases List.mem_pair.mp member with rfl | rfl
    · exact Nat.prime_two
    · exact Nat.prime_three
  exact list.map fun l : ℕ => ((l : ℤ), 1)

theorem indexCalculusStep1_logs_seven : ∃ _ : Fact (Nat.Prime 7), [2, 1].length = 2 ∧
    ∀ i < 2, ((3 : ℤ) : ZMod 7) ^ [2, (1 : ℤ)].getD i 0 = (Nat.nth Nat.Prime i : ZMod 7) := by
  have prime := Fact.mk Nat.prime_seven
  have run : indexCalculusStep1 (fun _ _ => 0) 10 2 3 (7 : ℕ) [(2, 1), (3, 1)] = some [2, 1] := by
    rw [indexCalculusStep1, primeTable_two]
    decide +kernel
  have squarefree : Squarefree (2 * 3) := by
    rw [Nat.squarefree_mul (by decide)]
    exact ⟨Nat.prime_two.prime.squarefree, Nat.prime_three.prime.squarefree⟩
  exact ⟨prime, indexCalculusStep1_logs (by decide) squarefree factors_six three_generates run⟩

end Pbc.Arith
