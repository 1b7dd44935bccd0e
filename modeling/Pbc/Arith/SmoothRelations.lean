import Mathlib.Data.Nat.Nth
import Mathlib.Data.Nat.Prime.Nth
import Pbc.Arith.IndexCalculus

/-!
# Smooth relations

The divisions by the prime table and its bundles write a number as a product of powers of primes
of the table, or leave what no prime of the table divides. An entry of the table that does not
fit 32 bits is not a prime; it either divides nothing that is left, or divides forever.
-/

open Pbc.Gmp

namespace Pbc.Arith

section Table

/-- The primes in their order. -/
noncomputable def ithPrime (i : ℕ) : ℕ := Nat.nth Nat.Prime i

theorem ithPrime_prime (i : ℕ) : (ithPrime i).Prime := Nat.nth_mem_of_infinite Nat.infinite_setOfPred_prime i

theorem ithPrime_lt {i j : ℕ} : ithPrime i < ithPrime j ↔ i < j :=
  Nat.nth_lt_nth Nat.infinite_setOfPred_prime

/-- Every prime has an index. -/
theorem exists_ithPrime {p : ℕ} (prime : p.Prime) : ∃ i, ithPrime i = p :=
  ⟨Nat.count Nat.Prime p, Nat.nth_count prime⟩

theorem mpzNextprime_ithPrime (i : ℕ) : mpzNextprime (ithPrime i) = ithPrime (i + 1) := by
  obtain ⟨p, next, prime, above, least⟩ := mpzNextprime_natCast (ithPrime i)
  obtain ⟨j, rfl⟩ := exists_ithPrime prime
  have lower : j ≤ i + 1 := by
    by_contra more
    have least := least _ (ithPrime_prime (i + 1)) (ithPrime_lt.mpr (Nat.lt_succ_self i))
    exact absurd (ithPrime_lt.mpr (not_le.mp more)) (not_lt.mpr least)
  have upper := ithPrime_lt.mp above
  obtain rfl : j = i + 1 := by omega
  exact next

/-- An entry of the prime table. -/
noncomputable def tableEntry (i : ℕ) : ℤ := (ithPrime i % 2 ^ 32 : ℕ)

theorem primeEntries_eq (r i : ℕ) :
    primeEntries r (ithPrime i) = (List.range' i r).map tableEntry := by
  induction r generalizing i with
  | zero => rfl
  | succ r ih =>
    rw [primeEntries, mpzNextprime_ithPrime, ih, List.range'_succ, List.map_cons, mpzGetUi,
      Int.natAbs_natCast, Nat.mod_mod_of_dvd _ (by decide), tableEntry]

theorem primeTable_eq (r : ℕ) : primeTable r = (List.range' 0 r).map tableEntry := by
  have two : ithPrime 0 = 2 := Nat.nth_prime_zero_eq_two
  rw [primeTable, ← primeEntries_eq, two]
  rfl

private theorem take_range' (i n m : ℕ) : (List.range' i n).take m = List.range' i (min m n) := by
  apply List.ext_getElem
  · rw [List.length_take, List.length_range', List.length_range']
  · intro k _ _
    rw [List.getElem_take, List.getElem_range', List.getElem_range']

/-- The indices of primes that fit an entry of the table. -/
def Fits (i : ℕ) : Prop := ithPrime i < 2 ^ 32

theorem Fits.entry {i : ℕ} (fits : Fits i) : tableEntry i = ithPrime i := by
  rw [tableEntry, Nat.mod_eq_of_lt fits]

end Table

section Divide

variable {r : ℕ}

/-- No prime of the table below an index divides a number. -/
def Rough (r i z : ℕ) : Prop := ∀ j, j < i → j < r → Fits j → ¬ithPrime j ∣ z

/-- One entry divides as a prime does, or not at all. -/
theorem divideWhile_entry {i z : ℕ} {left : ℤ × ℕ} (small : i < r) (rough : Rough r i z)
    (positive : 0 < z) (run : divideWhile (tableEntry i) z = some left) :
    ∃ c : ℕ, left.1 = c ∧ 0 < c ∧ z = c * ithPrime i ^ left.2 ∧ (left.2 ≠ 0 → Fits i) ∧
      (Fits i → ¬ithPrime i ∣ c) := by
  by_cases fits : Fits i
  · have prime := ithPrime_prime i
    obtain ⟨k, c, rest, rfl⟩ := Nat.exists_eq_pow_mul_and_not_dvd positive.ne' _ prime.ne_one
    rw [fits.entry, divideWhile_eq prime.two_le (Nat.pos_of_mul_pos_left positive) rest k] at run
    obtain rfl := Option.some.inj run
    exact ⟨c, rfl, Nat.pos_of_mul_pos_left positive, mul_comm _ _, fun _ => fits, fun _ => rest⟩
  -- The entry is smaller than a prime of more than 32 bits, so its prime factors came before.
  · have more : 2 ^ 32 ≤ ithPrime i := not_lt.mp fits
    have one : ithPrime i % 2 ^ 32 ≠ 1 := by
      intro one
      rw [tableEntry, one, Nat.cast_one, divideWhile_one] at run
      exact absurd run nofun
    have apart : ¬(z : ℤ) % tableEntry i = 0 := by
      intro zero
      have divides : ithPrime i % 2 ^ 32 ∣ z := Int.natCast_dvd_natCast.mp (Int.dvd_of_emod_eq_zero zero)
      obtain ⟨p, prime, factor⟩ := Nat.exists_prime_and_dvd one
      obtain ⟨j, rfl⟩ := exists_ithPrime prime
      have below : ithPrime j < 2 ^ 32 :=
        lt_of_le_of_lt (Nat.le_of_dvd (Nat.pos_of_dvd_of_pos divides positive) factor)
          (Nat.mod_lt _ (by decide))
      have before : j < i := ithPrime_lt.mp (lt_of_lt_of_le below more)
      exact rough j before (before.trans small) below (factor.trans divides)
    rw [divideWhile_of_not_dvd apart] at run
    obtain rfl := Option.some.inj run
    exact ⟨z, rfl, positive, by rw [pow_zero, mul_one], fun power => absurd rfl power,
      fun fits' => absurd fits' fits⟩

/-- The product of the powers of primes in a list of cells. -/
noncomputable def cellProduct (cells : List Cell) : ℕ :=
  (cells.map fun c => ithPrime c.ind ^ c.data.toNat).prod

@[simp] theorem cellProduct_append (cells cells' : List Cell) :
    cellProduct (cells ++ cells') = cellProduct cells * cellProduct cells' := by
  simp only [cellProduct, List.map_append, List.prod_append]

/-- Cells of primes of the table from index `i` up to index `j`, in their order. -/
structure Between (r i j : ℕ) (cells : List Cell) : Prop where
  sorted : cells.Pairwise fun c d => c.ind < d.ind
  range : ∀ c ∈ cells, i ≤ c.ind ∧ c.ind < j ∧ c.ind < r
  fits : ∀ c ∈ cells, Fits c.ind
  positive : ∀ c ∈ cells, 0 < c.data

theorem between_nil {i j : ℕ} : Between r i j [] :=
  ⟨List.Pairwise.nil, List.forall_mem_nil _, List.forall_mem_nil _, List.forall_mem_nil _⟩

theorem Between.mono {i j k : ℕ} {cells : List Cell} (between : Between r i j cells) (up : j ≤ k) :
    Between r i k cells :=
  ⟨between.sorted, fun c member => by have := between.range c member; omega, between.fits,
    between.positive⟩

theorem Between.append {i j k : ℕ} {cells cells' : List Cell} (first : Between r i j cells)
    (second : Between r j k cells') (up : i ≤ j) (up' : j ≤ k) : Between r i k (cells ++ cells') := by
  refine ⟨?_, fun c member => ?_, fun c member => ?_, fun c member => ?_⟩
  · refine List.pairwise_append.mpr ⟨first.sorted, second.sorted, fun c member d member' => ?_⟩
    have := (first.range c member).2.1
    have := (second.range d member').1
    omega
  all_goals rcases List.mem_append.mp member with member | member
  · have := first.range c member
    omega
  · have := second.range c member
    omega
  · exact first.fits c member
  · exact second.fits c member
  · exact first.positive c member
  · exact second.positive c member

/-- What the divisions by the entries from index `i` up to index `j` make of a number. -/
inductive DividedInto (r i j z : ℕ) (rel : List Cell) : Divided → Prop where
  | found (cells : List Cell) (between : Between r i j cells) (product : z = cellProduct cells) :
      DividedInto r i j z rel (.found (rel ++ cells))
  | rest (cells : List Cell) (c : ℕ) (between : Between r i j cells) (positive : 0 < c)
      (product : z = c * cellProduct cells) (rough : Rough r j c) :
      DividedInto r i j z rel (.rest c (rel ++ cells))

/-- Divisions by the entries before do not matter for the divisions after. -/
theorem DividedInto.after {i j k z c : ℕ} {rel cells : List Cell} {divided : Divided}
    (between : Between r i j cells) (product : z = c * cellProduct cells) (up : i ≤ j) (up' : j ≤ k)
    (second : DividedInto r j k c (rel ++ cells) divided) : DividedInto r i k z rel divided := by
  cases second with
  | found cells' between' product' =>
    rw [List.append_assoc]
    refine .found _ (between.append between' up up') ?_
    rw [cellProduct_append, product, product', mul_comm]
  | rest cells' c' between' positive' product' rough' =>
    rw [List.append_assoc]
    refine .rest _ c' (between.append between' up up') positive' ?_ rough'
    rw [cellProduct_append, product, product', mul_assoc, mul_comm (cellProduct cells')]

/-- The divisions by a stretch of the table. -/
theorem dividePrimes_spec {n i z : ℕ} {rel : List Cell} {divided : Divided} (inside : i + n ≤ r)
    (positive : 0 < z) (rough : Rough r i z)
    (run : dividePrimes ((List.range' i n).map tableEntry) i z rel = some divided) :
    DividedInto r i (i + n) z rel divided := by
  induction n generalizing i z rel with
  | zero =>
    obtain rfl := Option.some.inj run
    have start : DividedInto r i i z rel (.rest z (rel ++ [])) :=
      .rest [] z between_nil positive (mul_one z).symm rough
    rwa [List.append_nil] at start
  | succ n ih =>
    rw [List.range'_succ, List.map_cons, dividePrimes] at run
    obtain ⟨left, divides, run⟩ := Option.bind_eq_some_iff.mp run
    obtain ⟨c, value, positive', product, fits, rest⟩ :=
      divideWhile_entry (by omega) rough positive divides
    have rough' : Rough r (i + 1) c := by
      intro j below small fits' factor
      rcases Nat.lt_succ_iff_lt_or_eq.mp below with below | rfl
      · exact rough j below small fits' (product ▸ factor.mul_right _)
      · exact rest fits' factor
    rw [show i + (n + 1) = i + 1 + n by omega]
    split at run
    · next none =>
      rw [none, pow_zero, mul_one] at product
      rw [value] at run
      obtain rfl := product
      have later := ih (by omega) positive' rough' run
      rw [← List.append_nil rel] at later
      exact later.after between_nil (mul_one z).symm (by omega) (by omega)
    · next power =>
      have cell : Between r i (i + 1) [⟨i, left.2⟩] := by
        refine ⟨List.pairwise_singleton _ _, ?_, ?_, ?_⟩
        all_goals
          intro c member
          obtain rfl := List.mem_singleton.mp member
        · exact ⟨le_rfl, Nat.lt_succ_self i, by dsimp only; omega⟩
        · exact fits power
        · exact Int.natCast_pos.mpr (Nat.pos_of_ne_zero power)
      have factor : cellProduct [⟨i, left.2⟩] = ithPrime i ^ left.2 := by
        rw [cellProduct, List.map_singleton, List.prod_singleton, Int.toNat_natCast]
      rw [← factor] at product
      split at run
      · next one =>
        obtain rfl := Option.some.inj run
        rw [value, Nat.cast_eq_one] at one
        rw [one, one_mul] at product
        exact .found _ (cell.mono (by omega)) product
      · rw [value] at run
        exact (ih (by omega) positive' rough' run).after cell product (by omega) (by omega)

/-- Indices behind the table do not matter. -/
theorem DividedInto.widen {i j k z : ℕ} {rel : List Cell} {divided : Divided}
    (first : DividedInto r i j z rel divided) (up : j ≤ k) (all : ∀ m, m < k → m < r → m < j) :
    DividedInto r i k z rel divided := by
  cases first with
  | found cells between product => exact .found cells (between.mono up) product
  | rest cells c between positive product rough =>
    exact .rest cells c (between.mono up) positive product
      fun m below small => rough m (all m below small) small

theorem bundlePrimes_eq (r i : ℕ) : bundlePrimes (primeTable r) i =
    (List.range' (10 + 20 * i) (min 20 (r - (10 + 20 * i)))).map tableEntry := by
  rw [bundlePrimes, primeTable_eq, ← List.map_drop, ← List.map_take, List.drop_range',
    take_range', zero_add, mul_one]

/-- No prime of a bundle without a common factor divides. -/
private theorem bundle_rough {i z : ℕ} (rough : Rough r (10 + 20 * i) z)
    (coprime : Int.gcd (bundle (primeTable r) i) z = 1) : Rough r (10 + 20 * (i + 1)) z := by
  intro j below small fits factor
  by_cases before : j < 10 + 20 * i
  · exact rough j before small fits factor
  have member : tableEntry j ∈ bundlePrimes (primeTable r) i := by
    rw [bundlePrimes_eq]
    exact List.mem_map_of_mem (List.mem_range'_1.mpr ⟨by omega, by omega⟩)
  have divides : (ithPrime j : ℤ) ∣ bundle (primeTable r) i := by
    rw [bundle, ← List.prod_eq_foldl, ← fits.entry]
    exact List.dvd_prod member
  have common := Int.dvd_coe_gcd divides (Int.natCast_dvd_natCast.mpr factor)
  rw [coprime, Int.natCast_dvd_natCast, Nat.dvd_one] at common
  exact (ithPrime_prime j).ne_one common

/-- The divisions by the bundles. -/
theorem divideBundles_spec {count i z : ℕ} {rel : List Cell} {divided : Divided}
    (inside : 10 + 20 * (i + count) < r + 20) (positive : 0 < z) (rough : Rough r (10 + 20 * i) z)
    (run : divideBundles (primeTable r) count i z rel = some divided) :
    DividedInto r (10 + 20 * i) (10 + 20 * (i + count)) z rel divided := by
  induction count generalizing i z rel with
  | zero =>
    obtain rfl := Option.some.inj run
    have start : DividedInto r (10 + 20 * i) (10 + 20 * i) z rel (.rest z (rel ++ [])) :=
      .rest [] z between_nil positive (mul_one z).symm rough
    rwa [List.append_nil] at start
  | succ count ih =>
    rw [divideBundles] at run
    rw [← Nat.succ_add_eq_add_succ] at inside ⊢
    split at run
    · next coprime =>
      have later := ih inside positive (bundle_rough rough coprime) run
      rw [← List.append_nil rel] at later
      exact later.after between_nil (mul_one z).symm (by omega) (by omega)
    · obtain ⟨divided', first, run⟩ := Option.bind_eq_some_iff.mp run
      rw [bundlePrimes_eq] at first
      have first := dividePrimes_spec (by omega) positive rough first
      have first := first.widen (k := 10 + 20 * (i + 1)) (by omega) (by omega)
      cases first with
      | found cells between product =>
        obtain rfl := Option.some.inj run
        exact .found cells (between.mono (by omega)) product
      | rest cells c between positive' product rough' =>
        exact (ih inside positive' rough' run).after between product (by omega) (by omega)

/-- A relation that is found is a product of powers of primes of the table. -/
theorem divideTable_found {z : ℕ} {rel : List Cell} (positive : 0 < z)
    (run : divideTable (primeTable r) z = some (.found rel)) :
    ∃ j, Between r 0 j rel ∧ z = cellProduct rel := by
  obtain ⟨divided, first, run⟩ := Option.bind_eq_some_iff.mp run
  have part : (primeTable r).take 10 = (List.range' 0 (min 10 r)).map tableEntry := by
    rw [primeTable_eq, ← List.map_take, take_range']
  rw [part] at first
  have start : Rough r 0 z := fun j below => absurd below (Nat.not_lt_zero j)
  have first := dividePrimes_spec (by omega) positive start first
  have first := first.widen (k := 10 + 20 * 0) (by omega) (by omega)
  have length : (primeTable r).length = r := by
    rw [primeTable_eq, List.length_map, List.length_range']
  have whole : DividedInto r 0 (10 + 20 * (0 + (r + 9) / 20)) z [] (.found rel) := by
    cases first with
    | found cells between product =>
      obtain rfl := Divided.found.inj (Option.some.inj run)
      exact .found cells (between.mono (by omega)) product
    | rest cells c between positive' product rough =>
      rw [length] at run
      exact (divideBundles_spec (by omega) positive' rough run).after between product (by omega)
        (by omega)
  cases whole with
  | found cells between product => exact ⟨_, between, product⟩

end Divide

end Pbc.Arith
