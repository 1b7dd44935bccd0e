import Mathlib.LinearAlgebra.Dual.Lemmas
import Pbc.Arith.FactorBase

/-!
# Searches without end

The rows of a matrix keep a linear equation that all relations satisfy, whatever their constants
are. So a matrix for a prime is never complete unless the exponents of the smooth powers span,
and a search with such a matrix has no end, whatever group the powers are taken in.
-/

open Pbc.Gmp

namespace Pbc.Arith

variable {undefined : ℤ → ℤ → ℤ} {l r fuel count count' : ℕ} {M M' : Matrix}

section Constants

/-- A matrix without its constants. -/
def Matrix.withoutLogs (M : Matrix) : Matrix :=
  { M with row := M.row.map (Option.map fun rp => ⟨0, rp.cells⟩) }

theorem Matrix.rowAt_withoutLogs (M : Matrix) (i : ℕ) :
    M.withoutLogs.rowAt i = (M.rowAt i).map fun rp => ⟨0, rp.cells⟩ := by
  rw [Matrix.rowAt, Matrix.rowAt, Matrix.withoutLogs, List.getElem?_map]
  rcases M.row[i]? with - | - | rp
  · rfl
  · rfl
  · rfl

private theorem isSome_withoutLog :
    Option.isSome ∘ Option.map (fun rp : Row => (⟨0, rp.cells⟩ : Row)) = Option.isSome := by
  funext entry
  cases entry with
  | none => rfl
  | some rp => rfl

@[simp] theorem Matrix.filled_withoutLogs (M : Matrix) : M.withoutLogs.filled = M.filled := by
  rw [Matrix.filled, Matrix.filled, Matrix.withoutLogs, List.countP_map, isSome_withoutLog]

private theorem nextMissing_withoutLogs (row : List (Option Row)) (i : ℕ) :
    nextMissing (row.map (Option.map fun rp => ⟨0, rp.cells⟩)) i = nextMissing row i := by
  rw [nextMissing, nextMissing, ← List.map_drop, List.takeWhile_map, List.length_map,
    isSome_withoutLog]

private theorem addRow_withoutLogs (last : Cell) (km : ℤ) (relm : List Cell) :
    M.withoutLogs.addRow undefined last 0 relm = (M.addRow undefined last km relm).withoutLogs := by
  have row : (M.row.map (Option.map fun rp => (⟨0, rp.cells⟩ : Row))).set last.ind
      (some ⟨0, relm.map fun c => ⟨c.ind, c.data * mpzInvertOr undefined last.data M.order % M.order⟩⟩) =
      (M.row.set last.ind (some ⟨km * mpzInvertOr undefined last.data M.order % M.order,
        relm.map fun c => ⟨c.ind, c.data * mpzInvertOr undefined last.data M.order % M.order⟩⟩)).map
          (Option.map fun rp => ⟨0, rp.cells⟩) := by
    rw [List.map_set]
    rfl
  simp only [Matrix.addRow, Matrix.withoutLogs, zero_mul, Int.zero_emod, row,
    nextMissing_withoutLogs]

/-- The cells of the rows do not depend on the constants. -/
theorem Matrix.addRelation_withoutLogs {km : ℤ} {relm : List Cell}
    (run : M.addRelation undefined fuel km relm count = some (M', count')) :
    M.withoutLogs.addRelation undefined fuel 0 relm count = some (M'.withoutLogs, count') := by
  induction fuel generalizing km relm with
  | zero => exact absurd run nofun
  | succ fuel ih =>
    rw [Matrix.addRelation] at run ⊢
    cases tail : relm.getLast? with
    | none =>
      rw [tail] at run
      obtain ⟨rfl, rfl⟩ := Prod.mk.inj (Option.some.inj run)
      rfl
    | some last =>
      rw [tail] at run
      dsimp only at run ⊢
      by_cases old : last.ind < M.minfound
      · rw [if_pos old] at run
        obtain ⟨rfl, rfl⟩ := Prod.mk.inj (Option.some.inj run)
        exact if_pos old
      rw [if_neg old] at run
      refine (if_neg old).trans ?_
      rw [Matrix.rowAt_withoutLogs]
      cases found : M.rowAt last.ind with
      | none =>
        rw [found] at run
        obtain ⟨rfl, rfl⟩ := Prod.mk.inj (Option.some.inj run)
        rw [Option.map_none, addRow_withoutLogs]
      | some rp =>
        rw [found] at run
        have same : subLog M.order last.data 0 0 = 0 := by
          rw [subLog, mul_zero, Int.zero_emod]
          rfl
        have next := ih run
        rw [← same] at next
        exact next

end Constants

section Count

/-- The cells of all rows have indices of the table. -/
structure Matrix.Inside (M : Matrix) (r : ℕ) : Prop where
  length : M.row.length = r
  cells : ∀ i rp, M.rowAt i = some rp → ∀ c ∈ rp.cells, c.ind < r

theorem Matrix.Inside.filled_le (inside : M.Inside r) : M.filled ≤ r :=
  inside.length ▸ List.countP_le_length

/-- A new row has the cells of its relation. -/
private theorem Matrix.Inside.addRow (inside : M.Inside r) {last : Cell} {km : ℤ} {relm : List Cell}
    (cells : ∀ c ∈ relm, c.ind < r) : (M.addRow undefined last km relm).Inside r := by
  refine ⟨?_, fun i rp found => ?_⟩
  · rw [Matrix.addRow, List.length_set, inside.length]
  · rw [Matrix.addRow, Matrix.rowAt, List.getElem?_set] at found
    split at found
    · split at found
      · obtain rfl := Option.some.inj found
        intro c member
        obtain ⟨d, source, rfl⟩ := List.mem_map.mp member
        exact cells d source
      · cases found
    · exact inside.cells i rp found

/-- One relation counts its new row for any modulus. -/
theorem Matrix.Inside.addRelation {km : ℤ} {relm : List Cell} (inside : M.Inside r)
    (cells : ∀ c ∈ relm, c.ind < r)
    (run : M.addRelation undefined fuel km relm count = some (M', count')) :
    M'.Inside r ∧ M'.filled + count = M.filled + count' := by
  induction fuel generalizing km relm with
  | zero => exact absurd run nofun
  | succ fuel ih =>
    obtain ⟨rfl, rfl⟩ | ⟨before, last, rfl, ⟨empty, rfl, rfl⟩ | ⟨rp, found, rest⟩⟩ :=
      Matrix.addRelation_cases run
    · exact ⟨inside, rfl⟩
    · have small : last.ind < M.row.length :=
        inside.length.symm ▸ cells last List.mem_concat_self
      refine ⟨inside.addRow cells, ?_⟩
      rw [Matrix.filled_addRow small empty]
      omega
    · refine ih (@subCells_ind _ _ (· < r) before _ (fun c member => ?_) fun c member => ?_) rest
      · exact cells c (List.mem_append_left _ member)
      · exact inside.cells _ rp found c (List.dropLast_subset _ member)

end Count

section Span

variable {n : ℕ} {b : ℤ}

/-- The residues of powers of `b` that are products of primes of the table. -/
structure SmoothPower (n r : ℕ) (b : ℤ) (z : ℕ) : Prop where
  positive : 0 < z
  power : ∃ k : ℕ, b ^ k % n = z
  smooth : ∀ p, p.Prime → p ∣ z → ∃ i < r, ithPrime i = p

/-- The exponents of the primes of the table. -/
noncomputable def exponents (l r z : ℕ) : Fin r → ZMod l := fun i => (z.factorization (ithPrime i) : ℕ)

/-- The exponents of the smooth powers modulo a prime satisfy a linear equation. -/
def Degenerate (n r l : ℕ) (b : ℤ) : Prop :=
  Submodule.span (ZMod l) {v | ∃ z, SmoothPower n r b z ∧ exponents l r z = v} ≠ ⊤

/-- A prime of the table that divides the modulus but not the base divides no power. -/
theorem degenerate_of_not_dvd [prime : Fact l.Prime] {i : ℕ} (small : i < r) (divides : ithPrime i ∣ n)
    (rest : ¬(ithPrime i : ℤ) ∣ b) : Degenerate n r l b := by
  intro whole
  have below : Submodule.span (ZMod l) {v | ∃ z, SmoothPower n r b z ∧ exponents l r z = v} ≤
      (LinearMap.proj ⟨i, small⟩ : (Fin r → ZMod l) →ₗ[ZMod l] ZMod l).ker := by
    refine Submodule.span_le.mpr ?_
    rintro _ ⟨z, ⟨-, ⟨k, power⟩, -⟩, rfl⟩
    have apart : ¬ithPrime i ∣ z := by
      intro factor
      have factor' : (ithPrime i : ℤ) ∣ b ^ k % n := power ▸ Int.natCast_dvd_natCast.mpr factor
      rw [EuclideanDomain.dvd_mod_iff (Int.natCast_dvd_natCast.mpr divides)] at factor'
      exact rest ((Nat.prime_iff_prime_int.mp (ithPrime_prime i)).dvd_of_dvd_pow factor')
    change ((z.factorization (ithPrime i) : ℕ) : ZMod l) = 0
    rw [Nat.factorization_eq_zero_of_not_dvd apart, Nat.cast_zero]
  have single : Pi.single ⟨i, small⟩ (1 : ZMod l) ∈
      (LinearMap.proj ⟨i, small⟩ : (Fin r → ZMod l) →ₗ[ZMod l] ZMod l).ker :=
    below (whole ▸ Submodule.mem_top)
  rw [LinearMap.mem_ker, LinearMap.proj_apply, Pi.single_eq_same] at single
  exact one_ne_zero single

/-- The coefficients of the linear equation. -/
theorem Degenerate.exists_equation [Fact l.Prime] (degenerate : Degenerate n r l b) :
    ∃ φ : ℕ → ZMod l, (∃ i < r, φ i ≠ 0) ∧ ∀ z, SmoothPower n r b z →
      ∑ i ∈ Finset.range r, ((z.factorization (ithPrime i) : ℕ) : ZMod l) * φ i = 0 := by
  obtain ⟨f, nonzero, kernel⟩ := Submodule.exists_le_ker_of_lt_top _ degenerate.lt_top
  refine ⟨fun i => if small : i < r then f (Pi.single ⟨i, small⟩ 1) else 0, ?_, ?_⟩
  · by_contra none
    push Not at none
    apply nonzero
    ext i
    have zero := none i i.isLt
    rwa [dif_pos i.isLt] at zero
  · intro z smooth
    have zero : f (exponents l r z) = 0 := kernel (Submodule.subset_span ⟨z, smooth, rfl⟩)
    rw [← Fin.sum_univ_eq_sum_range (fun i => ((z.factorization (ithPrime i) : ℕ) : ZMod l) *
      if small : i < r then f (Pi.single ⟨i, small⟩ 1) else 0), ← zero, f.pi_apply_eq_sum_univ]
    refine Finset.sum_congr rfl fun i _ => ?_
    have unit : (Pi.single i 1 : Fin r → ZMod l) = fun j => if i = j then 1 else 0 := by
      funext j
      rw [Pi.single_apply]
      exact if_congr eq_comm rfl rfl
    rw [dif_pos i.isLt, Fin.eta, unit, smul_eq_mul, exponents]

/-- The sum of the cells of a relation is a sum of exponents. -/
private theorem cellSum_eq_sum (φ : ℕ → ZMod l) {cells : List Cell} (small : ∀ c ∈ cells, c.ind < r)
    (positive : ∀ c ∈ cells, 0 < c.data) :
    cellSum φ cells = ∑ i ∈ Finset.range r,
      (((cellProduct cells).factorization (ithPrime i) : ℕ) : ZMod l) * φ i := by
  induction cells with
  | nil => simp [cellProduct]
  | cons c cells ih =>
    obtain ⟨below, small⟩ := List.forall_mem_cons.mp small
    obtain ⟨more, positive⟩ := List.forall_mem_cons.mp positive
    have nonzero : cellProduct cells ≠ 0 := by
      refine List.prod_ne_zero fun member => ?_
      obtain ⟨d, -, zero⟩ := List.mem_map.mp member
      exact pow_ne_zero _ (ithPrime_prime d.ind).ne_zero zero
    have product : cellProduct (c :: cells) = ithPrime c.ind ^ c.data.toNat * cellProduct cells := by
      rw [cellProduct, List.map_cons, List.prod_cons, ← cellProduct]
    have exponent (i : ℕ) : (cellProduct (c :: cells)).factorization (ithPrime i) =
        (if c.ind = i then c.data.toNat else 0) + (cellProduct cells).factorization (ithPrime i) := by
      rw [product, Nat.factorization_mul (pow_ne_zero _ (ithPrime_prime c.ind).ne_zero) nonzero,
        Finsupp.add_apply, (ithPrime_prime c.ind).factorization_pow, Finsupp.single_apply]
      have same : ithPrime c.ind = ithPrime i ↔ c.ind = i :=
        (Nat.nth_injective Nat.infinite_setOfPred_prime).eq_iff
      simp only [same]
    have value : ((c.data.toNat : ℕ) : ZMod l) = c.data := by
      rw [← Int.cast_natCast, Int.toNat_of_nonneg more.le]
    have single : ∑ i ∈ Finset.range r, ((if c.ind = i then c.data.toNat else 0 : ℕ) : ZMod l) * φ i =
        c.data * φ c.ind := by
      rw [Finset.sum_eq_single_of_mem c.ind (Finset.mem_range.mpr below), if_pos rfl, value]
      intro i _ apart
      rw [if_neg apart.symm, Nat.cast_zero, zero_mul]
    simp only [exponent, Nat.cast_add, add_mul, Finset.sum_add_distrib]
    rw [cellSum_cons, ih small positive, single]

/-- A relation that is found is a smooth power. -/
private theorem smoothPower_of_between {j k : ℕ} {rel : List Cell} (between : Between r 0 j rel)
    (positive : 0 < cellProduct rel) (power : b ^ k % n = (cellProduct rel : ℕ)) :
    SmoothPower n r b (cellProduct rel) := by
  refine ⟨positive, ⟨k, power⟩, fun p prime divides => ?_⟩
  obtain ⟨factor, member, divides⟩ := (Prime.dvd_prod_iff prime.prime).mp divides
  obtain ⟨c, inside, rfl⟩ := List.mem_map.mp member
  have same := (Nat.prime_dvd_prime_iff_eq prime (ithPrime_prime c.ind)).mp
    (prime.dvd_of_dvd_pow divides)
  exact ⟨c.ind, (between.range c inside).2.2, same.symm⟩

end Span

section Search

variable {n : ℕ} {b : ℤ} {φ : ℕ → ZMod l} {matrix matrix' : List Matrix} [prime : Fact l.Prime]

/-- The state of a search: the rows of one matrix satisfy a linear equation. -/
structure SearchShort (l r : ℕ) (φ : ℕ → ZMod l) (matrix : List Matrix) (count : ℕ) : Prop where
  inside : ∀ M ∈ matrix, M.Inside r
  equation : ∃ M ∈ matrix, M.withoutLogs.Holds l r (· < r) φ
  count : filledRows matrix = count

/-- One relation that satisfies the equation, for all factors. -/
private theorem addRelations_short {k : ℤ} {j : ℕ} {rel : List Cell} (between : Between r 0 j rel)
    (zero : cellSum φ rel = 0) (inside : ∀ M ∈ matrix, M.Inside r)
    (run : addRelations undefined fuel k rel matrix count = some (matrix', count')) :
    (∀ M ∈ matrix', M.Inside r) ∧ filledRows matrix' + count = filledRows matrix + count' ∧
      ((∃ M ∈ matrix, M.withoutLogs.Holds l r (· < r) φ) →
        ∃ M ∈ matrix', M.withoutLogs.Holds l r (· < r) φ) := by
  have small : ∀ c ∈ rel, c.ind < r := fun c member => (between.range c member).2.2
  induction matrix generalizing matrix' count count' with
  | nil =>
    obtain ⟨rfl, rfl⟩ := Prod.mk.inj (Option.some.inj run)
    exact ⟨inside, rfl, id⟩
  | cons M matrix ih =>
    obtain ⟨head, inside⟩ := List.forall_mem_cons.mp inside
    obtain ⟨⟨M', middle⟩, first, run⟩ := Option.bind_eq_some_iff.mp run
    obtain ⟨⟨rest, last⟩, second, equal⟩ := Option.map_eq_some_iff.mp run
    obtain ⟨rfl, rfl⟩ := Prod.mk.inj equal
    have reduced : ∀ c ∈ reduceCells M.order rel, c.ind < r := by
      intro c member
      obtain ⟨d, source, rfl⟩ := List.mem_map.mp (List.mem_of_mem_filter member)
      exact small d source
    obtain ⟨head', rows⟩ := head.addRelation reduced first
    obtain ⟨inside', rows', later⟩ := ih inside second
    refine ⟨List.forall_mem_cons.mpr ⟨head', inside'⟩, ?_, ?_⟩
    · simp only [filledRows, List.map_cons, List.sum_cons] at rows rows' ⊢
      omega
    · rintro ⟨N, member, holds⟩
      rcases List.mem_cons.mp member with rfl | member
      · refine ⟨M', List.mem_cons_self, ?_⟩
        have order : N.order = l := holds.order
        have value : ((0 : ℤ) : ZMod l) = cellSum φ (reduceCells N.order rel) := by
          rw [order, reduceCells_sum, zero, Int.cast_zero]
        have fine : ReducedCells l (· < r) (reduceCells N.order rel) := by
          rw [order]
          exact reduceCells_reduced prime.out.pos between.sorted small
        exact (holds.addRelation (fun i below => below) fine value
          (Matrix.addRelation_withoutLogs first)).1
      · obtain ⟨N, member', holds'⟩ := later ⟨N, member, holds⟩
        exact ⟨N, List.mem_cons_of_mem M' member', holds'⟩

/-- Matrices that satisfy an equation are not all complete. -/
private theorem SearchShort.lt (short : SearchShort l r φ matrix count) (nonzero : ∃ i < r, φ i ≠ 0) :
    count < r * matrix.length := by
  by_contra enough
  have full := filled_of_enough (fun M member => (short.inside M member).filled_le)
    (short.count ▸ not_lt.mp enough)
  obtain ⟨M, member, holds⟩ := short.equation
  obtain ⟨i, small, apart⟩ := nonzero
  apply apart
  have all : M.withoutLogs.filled = r := M.filled_withoutLogs.trans (full M member)
  induction i using Nat.strong_induction_on with
  | _ i ih =>
    obtain ⟨rp, found, row⟩ := holds.row_of_filled all small
    rw [Matrix.rowAt_withoutLogs] at found
    obtain ⟨source, -, rfl⟩ := Option.map_eq_some_iff.mp found
    have sum := row.log_eq
    have none : ∀ c ∈ source.cells.dropLast, φ c.ind = (fun _ => 0 : ℕ → ZMod l) c.ind := by
      intro c member
      have below := row.before c member
      by_contra other
      exact other (ih c.ind below (below.trans small) other)
    have zero : cellSum φ source.cells.dropLast = 0 := by
      rw [@cellSum_congr l φ (fun _ => 0) _ none]
      simp [cellSum]
    rwa [zero, zero_add, Int.cast_zero, eq_comm] at sum

/-- Divisions of zero by the first prime go on forever. -/
private theorem divideTable_zero (positive : 0 < r) : divideTable (primeTable r) 0 = none := by
  obtain ⟨r, rfl⟩ := Nat.exists_eq_add_of_lt positive
  rw [zero_add]
  rfl

/-- A search whose relations satisfy an equation does not end. -/
private theorem searchRelations_short (undefined : ℤ → ℤ → ℤ) (fuel : ℕ) (more : 0 < n) (nonzero : ∃ i < r, φ i ≠ 0)
    (equation : ∀ z, SmoothPower n r b z →
      ∑ i ∈ Finset.range r, ((z.factorization (ithPrime i) : ℕ) : ZMod l) * φ i = 0)
    {k : ℕ} {z : ℤ} (power : z = b ^ k % n) (short : SearchShort l r φ matrix count) :
    searchRelations undefined (primeTable r) b n fuel z k matrix count = none := by
  induction fuel generalizing k z matrix count with
  | zero => rfl
  | succ fuel ih =>
    have next : z * b % n = b ^ (k + 1) % n := by
      rw [power, pow_succ]
      exact (Int.mod_modEq (b ^ k) n).mul_right b
    have index : ((k + 1 : ℕ) : ℤ) = k + 1 := by push_cast; rfl
    have length : (primeTable r).length = r := by
      rw [primeTable_eq, List.length_map, List.length_range']
    obtain ⟨z', value⟩ := Int.eq_ofNat_of_zero_le (Int.emod_nonneg (b ^ (k + 1)) (by omega : (n : ℤ) ≠ 0))
    rw [searchRelations, next]
    rw [Option.bind_eq_none_iff]
    intro divided first
    rw [Option.bind_eq_none_iff]
    rintro ⟨matrix', count'⟩ second
    have short' : SearchShort l r φ matrix' count' := by
      cases divided with
      | found rel =>
        have positive : 0 < z' := by
          refine Nat.pos_of_ne_zero fun zero => ?_
          obtain ⟨i, small, -⟩ := nonzero
          rw [value, zero, Nat.cast_zero, divideTable_zero (Nat.zero_lt_of_lt small)] at first
          cases first
        rw [value] at first
        obtain ⟨j, between, product⟩ := divideTable_found positive first
        have smooth := smoothPower_of_between between (product ▸ positive) (product ▸ value)
        have zero : cellSum φ rel = 0 := by
          rw [cellSum_eq_sum φ (fun c member => (between.range c member).2.2) between.positive]
          exact equation _ smooth
        obtain ⟨inside, rows, later⟩ := addRelations_short between zero short.inside second
        have := short.count
        exact ⟨inside, later short.equation, by omega⟩
      | rest z1 rel =>
        obtain ⟨rfl, rfl⟩ := Prod.mk.inj (Option.some.inj second)
        exact short
    have missing : (count' : ℤ) < (primeTable r).length * matrix'.length := by
      rw [length]
      exact_mod_cast short'.lt nonzero
    dsimp only
    rw [if_pos (by exact_mod_cast missing), ← index]
    exact ih rfl short'

/-- The first step does not end for a prime factor modulo which the smooth powers do not span. -/
theorem indexCalculusStep1_degenerate {fac : List (ℤ × ℕ)} (more : 1 < n)
    (listed : ((l : ℤ), 1) ∈ fac) (degenerate : Degenerate n r l b) :
    indexCalculusStep1 undefined fuel r b n fac = none := by
  obtain ⟨φ, nonzero, equation⟩ := degenerate.exists_equation
  have short : SearchShort l r φ (emptyMatrices r fac) 0 := by
    refine ⟨fun M member => ?_, ⟨_, List.mem_map_of_mem listed, rfl, ?_, fun i rp found => ?_⟩,
      filledRows_emptyMatrices r fac⟩
    · obtain ⟨f, -, rfl⟩ := List.mem_map.mp member
      refine ⟨List.length_replicate, fun i rp found => ?_⟩
      rw [rowAt_empty] at found
      cases found
    · rw [Matrix.withoutLogs, List.length_map, List.length_replicate]
    · rw [Matrix.rowAt_withoutLogs, rowAt_empty] at found
      cases found
  have one : (1 : ℤ) = b ^ 0 % n := by
    rw [pow_zero, Int.emod_eq_of_lt one_pos.le (by exact_mod_cast more)]
  have search := searchRelations_short undefined fuel (Nat.zero_lt_of_lt more) nonzero equation one
    short
  rw [indexCalculusStep1]
  split
  · rw [Nat.cast_zero] at search
    rw [search, Option.map_none]
  · rfl

end Search

section Dlog

variable {size : ℤ → ℕ} {n : ℕ} {g : ℤ}

/-- A factor divides more than once, so there is only the message on p-adics. -/
def PadicMessage (n : ℕ) : Prop :=
  ∃ fac, trialDivide ((n : ℤ) - 1) (some dlogLimit) = some fac ∧ ∃ f ∈ fac, f.2 ≠ 1

/-- The smooth powers of a base do not span modulo one of the factors, a prime. -/
def SearchStuck (size : ℤ → ℕ) (n : ℕ) (fac : List (ℤ × ℕ)) (b : ℤ) : Prop :=
  ∃ l : ℕ, l.Prime ∧ ((l : ℤ), 1) ∈ fac ∧ Degenerate n (size n) l b

/-- The search to the base `g` does not end, or, when `g` does not pass for a generator, the search
to no base that passes for one. -/
def DlogStuck (size : ℤ → ℕ) (n : ℕ) (g : ℤ) : Prop :=
  ∀ fac, trialDivide ((n : ℤ) - 1) (some dlogLimit) = some fac →
    if isGen g n fac = true then SearchStuck size n fac g
    else ∀ z, isGen z n fac = true → SearchStuck size n fac z

theorem SearchStuck.step1 {fac : List (ℤ × ℕ)} {b : ℤ} (more : 1 < n)
    (stuck : SearchStuck size n fac b) :
    indexCalculusStep1 undefined fuel (size n) b n fac = none := by
  obtain ⟨l, prime, listed, degenerate⟩ := stuck
  have := Fact.mk prime
  exact indexCalculusStep1_degenerate more listed degenerate

/-- An element that is drawn passes for a generator. -/
private theorem isGen_drawGenerator {W : Type} {random : ℤ → W → ℤ × W} {q : ℤ}
    {fac : List (ℤ × ℕ)} {w : W} {drawn : ℤ × W}
    (run : drawGenerator random q fac fuel w = some drawn) : isGen drawn.1 q fac = true := by
  induction fuel generalizing w with
  | zero => exact absurd run nofun
  | succ fuel ih =>
    rw [drawGenerator] at run
    split at run
    · next passes =>
      obtain rfl := Option.some.inj run
      exact passes
    · exact ih run

/-- Without the message and without the end of a search there is no logarithm. -/
theorem indexCalculusDlog_stuck {W : Type} (undefined inexact : ℤ → ℤ → ℤ)
    (random : ℤ → W → ℤ × W) (fuel : ℕ) (h : ℤ) (w : W) (more : 1 < n) (silent : ¬PadicMessage n) (stuck : DlogStuck size n g) :
    indexCalculusDlog undefined inexact size random fuel g h n w = none := by
  rw [indexCalculusDlog, Option.bind_eq_none_iff]
  intro fac factors
  have single : ¬(fac.any fun f => decide (f.2 ≠ 1)) = true := by
    intro many
    obtain ⟨f, member, multiple⟩ := List.any_eq_true.mp many
    exact silent ⟨fac, factors, f, member, of_decide_eq_true multiple⟩
  have stuck := stuck fac factors
  rw [if_neg single]
  split at stuck
  · next passes =>
    rw [if_pos passes, stuck.step1 more, Option.bind_none]
  · next fails =>
    rw [if_neg fails, Option.bind_eq_none_iff]
    intro drawn draws
    rw [dlogByGenerator, (stuck drawn.1 (isGen_drawGenerator draws)).step1 more, Option.bind_none,
      Option.map_none]

end Dlog

end Pbc.Arith
