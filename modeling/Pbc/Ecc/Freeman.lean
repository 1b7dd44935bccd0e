import Mathlib.Tactic.NormNum.Prime
import Pbc.Ecc.Mnt

/-!
# The search for curves of embedding degree 10

Curves over `F_q` whose order has a factor that divides `q⁴ - q³ + q² - q + 1`. The Pell
solutions `U` are five or ten modulo fifteen; those of the second kind have to be taken with
the other sign, and the search does not do that.
-/

open Pbc.Gmp Pbc.Number

namespace Pbc.Ecc

section Operations

/-- The size of the field at `x`. -/
def freemanQ (x : ℤ) : ℤ :=
  let r := x * x
  let q := x + x
  let r := r * 5
  let q := q + r
  let r := r * x
  let q := q + r
  let r := r * x
  let q := q + r
  q * 5 + 3

/-- The order of the curve at `x`. -/
def freemanN (x : ℤ) : ℤ :=
  let n := x * 5
  let r := n * x
  let r := r + r
  let n := n + r
  let n := freemanQ x - n
  n - 2

/-- `freeman_step2`. -/
def freemanStep2 (L : List CmInfo) (D : UInt32) (U : ℤ) : Option (List CmInfo × ℕ) :=
  if U % 15 = 5 then
    let x := (U - 5) / 15
    appendCurve 10 L D (freemanQ x) (freemanN x)
  else if U % 15 = 10 then
    let x := (U + 5) / 15
    appendCurve 10 L D (freemanQ x) (freemanN x)
  else some (L, 1)

/-- `find_freeman_curve`. -/
def findFreemanCurve (fuel : ℕ) (L : List CmInfo) (D bitlimit : UInt32) :
    Option (List CmInfo × ℕ) :=
  findCurve (fun L => freemanStep2 L D) (D.toNat * 15) (bitlimit + 10).toNat fuel (-20) L

end Operations

section Identities

/-- The polynomial of the embedding degree 10. -/
def phi10 (q : ℤ) : ℤ := q ^ 4 - q ^ 3 + q ^ 2 - q + 1

theorem freemanQ_eq (x : ℤ) : freemanQ x = 25 * x ^ 4 + 25 * x ^ 3 + 25 * x ^ 2 + 10 * x + 3 := by
  simp only [freemanQ]
  ring

theorem freemanN_eq (x : ℤ) : freemanN x = 25 * x ^ 4 + 25 * x ^ 3 + 15 * x ^ 2 + 5 * x + 1 := by
  simp only [freemanN, freemanQ_eq]
  ring

theorem freemanN_pos {x : ℤ} (nonneg : 0 ≤ x) : 0 < freemanN x := by
  rw [freemanN_eq]
  positivity

theorem freemanN_dvd (x : ℤ) : freemanN x ∣ phi10 (freemanQ x) := by
  refine ⟨15625 * x ^ 12 + 46875 * x ^ 11 + 100000 * x ^ 10 + 143750 * x ^ 9 + 165000 * x ^ 8 +
    147500 * x ^ 7 + 108250 * x ^ 6 + 63375 * x ^ 5 + 30100 * x ^ 4 + 11000 * x ^ 3 + 3060 * x ^ 2 +
    555 * x + 61, ?_⟩
  rw [phi10, freemanQ_eq, freemanN_eq]
  ring

/-- The discriminant of the trace. -/
theorem freeman_norm (x : ℤ) :
    4 * freemanQ x - (freemanQ x + 1 - freemanN x) ^ 2 = 15 * x ^ 2 + 10 * x + 3 := by
  rw [freemanQ_eq, freemanN_eq]
  ring

/-- A number and its negative cannot both belong to one discriminant. -/
theorem freeman_unsound {x D y V : ℤ} (positive : 0 < x) (solution : 15 * x ^ 2 - 10 * x + 3 = D * y ^ 2) :
    15 * x ^ 2 + 10 * x + 3 ≠ D * V ^ 2 := by
  intro other
  have square : (D * y * V) ^ 2 = 225 * x ^ 4 - 10 * x ^ 2 + 9 := calc
    (D * y * V) ^ 2 = (D * y ^ 2) * (D * V ^ 2) := by ring
    _ = 225 * x ^ 4 - 10 * x ^ 2 + 9 := by rw [← solution, ← other]; ring
  have one : 1 ≤ x ^ 2 := by nlinarith
  have below : (15 * x ^ 2 - 1) ^ 2 < (D * y * V) ^ 2 := by
    rw [square]
    nlinarith
  have above : (D * y * V) ^ 2 < (15 * x ^ 2) ^ 2 := by
    rw [square]
    nlinarith
  have upper := abs_lt_of_sq_lt_sq above (by positivity)
  rw [← sq_abs (D * y * V)] at below
  have lower := lt_of_le_of_lt (le_abs_self _) (abs_lt_of_sq_lt_sq below (abs_nonneg _))
  omega

end Identities

section Search

variable {D : UInt32}

/-- A solution `U` that the search takes with the wrong sign, and turns into a curve. -/
structure Misread (U : ℤ) : Prop where
  residue : U % 15 = 10
  prime : (freemanQ ((U + 5) / 15)).natAbs.Prime
  splits : Splits (freemanN ((U + 5) / 15)).natAbs

/-- A solution of the Pell equation is turned into at most one curve, which is sound unless
the solution is misread. -/
theorem freemanStep2_sound_iff (D : UInt32) {s : ℤ × ℤ}
    (solution : IsSolution (15 * D.toNat) (-20) s) :
    Appends (fun L => freemanStep2 L D) (outOf fun L => freemanStep2 L D) s.1 ∧
      ((∀ cm ∈ outOf (fun L => freemanStep2 L D) s.1, cm.k = 10 ∧ cm.Sound D.toNat phi10) ↔
        ¬Misread s.1) := by
  obtain ⟨norm, positive, -⟩ := solution
  by_cases five : s.1 % 15 = 5
  · obtain ⟨x, root⟩ : ∃ x, s.1 = 15 * x + 5 := ⟨(s.1 - 5) / 15, by omega⟩
    have step (L : List CmInfo) :
        freemanStep2 L D s.1 = appendCurve 10 L D (freemanQ x) (freemanN x) := by
      have exact_root : (s.1 - 5) / 15 = x := by omega
      simp only [freemanStep2, if_pos five, exact_root]
    obtain ⟨appends, -, all⟩ := outOf_appendCurve step (freemanN_pos (by omega))
    refine ⟨appends, iff_of_true (fun cm member => ?_) fun misread => ?_⟩
    · obtain ⟨q, n, product, degree⟩ := all cm member
      refine ⟨degree, .of_order ⟨q, n, product⟩ (freemanN_dvd x) ⟨s.2, ?_⟩⟩
      rw [root] at norm
      rw [freeman_norm]
      linarith
    · have ten := misread.residue
      omega
  · by_cases ten : s.1 % 15 = 10
    · obtain ⟨x, root⟩ : ∃ x, s.1 = 15 * x - 5 := ⟨(s.1 + 5) / 15, by omega⟩
      have exact_root : (s.1 + 5) / 15 = x := by omega
      have step (L : List CmInfo) :
          freemanStep2 L D s.1 = appendCurve 10 L D (freemanQ x) (freemanN x) := by
        simp only [freemanStep2, if_neg five, if_pos ten, exact_root]
      obtain ⟨appends, some, all⟩ := outOf_appendCurve step (freemanN_pos (by omega))
      refine ⟨appends, fun sound misread => ?_, fun fine cm member => ?_⟩
      · have nonempty := some.mpr ⟨exact_root ▸ misread.prime, exact_root ▸ misread.splits⟩
        obtain ⟨cm, member⟩ := List.exists_mem_of_ne_nil _ nonempty
        obtain ⟨q, n, -, -⟩ := all cm member
        obtain ⟨V, trace⟩ := (sound cm member).2.norm
        rw [q, n, freeman_norm] at trace
        rw [root] at norm
        have mirrored : 15 * x ^ 2 - 10 * x + 3 = D.toNat * s.2 ^ 2 := by linarith
        exact freeman_unsound (by omega) mirrored trace
      · obtain ⟨prime, splits⟩ := some.mp (List.ne_nil_of_mem member)
        exact absurd ⟨ten, exact_root ▸ prime, exact_root ▸ splits⟩ fine
    · have step (L : List CmInfo) : freemanStep2 L D s.1 = some (L ++ [], 1) := by
        simp only [freemanStep2, if_neg five, if_neg ten, List.append_nil]
      obtain ⟨appends, same⟩ := Appends.of_run step (Nat.zero_le 1)
      rw [same]
      exact ⟨appends, iff_of_true nofun fun misread => ten misread.residue⟩

private theorem freeman_positive (nonsquare : ¬IsSquare (15 * D.toNat)) :
    ¬IsSquare (15 * D.toNat : ℤ) ∧ (0 : ℤ) < 15 * D.toNat := by
  have nonsquare' : ¬IsSquare (15 * D.toNat : ℤ) := by
    rwa [← Nat.cast_ofNat, ← Nat.cast_mul, Int.isSquare_natCast_iff]
  refine ⟨nonsquare', lt_of_le_of_ne (by positivity) fun zero => nonsquare' ?_⟩
  rw [← zero]
  exact IsSquare.zero

/-- The search for curves of embedding degree 10 ends and returns the number of curves that
it appends; they are sound exactly if it comes to no solution that it misreads. -/
theorem findFreemanCurve_sound_iff (nonsquare : ¬IsSquare (15 * D.toNat)) (bitlimit : UInt32)
    (L : List CmInfo) :
    ∃ k ps, (∀ fuel, k < fuel → generalPell fuel (15 * D.toNat) (-20) = some ps) ∧
      ∀ fuel, k < fuel → ∃ found count,
        findFreemanCurve fuel L D bitlimit = some (L ++ found, count) ∧
        ((count = found.length ∧ ∀ cm ∈ found, cm.k = 10 ∧ cm.Sound D.toNat phi10) ↔
          ∀ s, ps.Visits (15 * D.toNat) (bitlimit + 10).toNat ps.solutions s → ¬Misread s.1) := by
  obtain ⟨nonsquare', positive⟩ := freeman_positive nonsquare
  obtain ⟨k, ps, pell, -, run⟩ := findCurve_visits positive nonsquare' (bitlimit + 10).toNat
    (fun s solution => (freemanStep2_sound_iff D solution).1) L
  refine ⟨k, ps, pell, fun fuel more => ?_⟩
  obtain ⟨visited, visits, solutions, found⟩ := run fuel more
  have swapped : (D.toNat : ℤ) * 15 = 15 * D.toNat := mul_comm _ _
  refine ⟨_, _, by rw [findFreemanCurve, swapped, found], ?_⟩
  constructor
  · rintro ⟨-, sound⟩ s visit
    have inside := (visits s).mpr visit
    refine (freemanStep2_sound_iff D (solutions s inside)).2.mp fun cm member => ?_
    exact sound cm (List.mem_flatMap.mpr ⟨s, inside, member⟩)
  · intro fine
    refine ⟨rfl, fun cm member => ?_⟩
    obtain ⟨s, inside, member⟩ := List.mem_flatMap.mp member
    have read := fine s ((visits s).mp inside)
    exact (freemanStep2_sound_iff D (solutions s inside)).2.mpr read cm member

private theorem nonsquare_two : ¬IsSquare (15 * (2 : UInt32).toNat) := by
  rintro ⟨n, square⟩
  have value : 30 = n * n := square
  have bound : n < 6 := by nlinarith
  have none : ∀ n < 6, 30 ≠ n * n := by decide
  exact none n bound value

theorem findFreemanCurve_sound_two :
    ∃ k ps, (∀ fuel, k < fuel → generalPell fuel (15 * (2 : UInt32).toNat) (-20) = some ps) ∧
      ∀ fuel, k < fuel → ∃ found count, findFreemanCurve fuel [] 2 100 = some ([] ++ found, count) ∧
        ((count = found.length ∧
            ∀ cm ∈ found, cm.k = 10 ∧ cm.Sound (2 : UInt32).toNat phi10) ↔
          ∀ s, ps.Visits (15 * (2 : UInt32).toNat) ((100 : UInt32) + 10).toNat ps.solutions s →
            ¬Misread s.1) :=
  findFreemanCurve_sound_iff nonsquare_two 100 []

/-- The solutions for the discriminant 203; the first is ten modulo fifteen. -/
private def pell203 : PellSolution :=
  ⟨111823361, 2026464, [(55, 1), (33440, 606), (20298025, 367841)]⟩

private theorem pell203_solutions :
    pell203.solutions = [(55, 1), (33440, 606), (20298025, 367841)] := rfl

private theorem splits_8261 : Splits 8261 := by
  refine ⟨11, 751, rfl, by norm_num, fun l prime divides => ?_⟩
  obtain rfl := (Nat.prime_dvd_prime_iff_eq prime (by norm_num)).mp divides
  decide

private theorem solutionLoop_first {step2 : List CmInfo → ℤ → Option (List CmInfo × ℕ)}
    {out : List CmInfo} (run : step2 [] 55 = some (out, 0))
    (toobig : pell203.fits 3045 10 (55, 1) = false) (fuel : ℕ) :
    solutionLoop step2 pell203 3045 10 (fuel + 1) pell203.solutions [] 0 = some (out, 1) := by
  simp only [pell203_solutions, solutionLoop, solutionRound, run, toobig, Option.bind_eq_bind,
    Option.bind_some, Option.pure_def, Bool.false_eq_true, if_false, if_true, zero_add]

/-- A curve that is appended although no curve has its order and the discriminant 203. -/
theorem findFreemanCurve_unsound : ∃ found count,
    findFreemanCurve 11 [] 203 0 = some (found, count) ∧
      ∃ cm ∈ found, cm.q = 8443 ∧ cm.n = 8261 ∧
        ¬∃ V, 4 * cm.q - (cm.q + 1 - cm.n) ^ 2 = (203 : UInt32).toNat * V ^ 2 := by
  have step (L : List CmInfo) : freemanStep2 L 203 55 = appendCurve 10 L 203 8443 8261 := by
    have residue : ¬(55 : ℤ) % 15 = 5 := by decide
    have root : ((55 : ℤ) + 5) / 15 = 4 := by decide
    have q : freemanQ 4 = 8443 := by rw [freemanQ_eq]; norm_num
    have n : freemanN 4 = 8261 := by rw [freemanN_eq]; norm_num
    rw [freemanStep2, if_neg residue, if_pos (by decide), root]
    simp only [q, n]
  obtain ⟨appends, some, all⟩ := @outOf_appendCurve (fun L => freemanStep2 L 203) 55 8443 8261 10 203
    step (by decide)
  have nonempty := some.mpr ⟨by norm_num, splits_8261⟩
  have run := appends.run []
  obtain ⟨cm, member⟩ := List.exists_mem_of_ne_nil _ nonempty
  obtain ⟨q, n, -, -⟩ := all cm member
  have pell : generalPell 11 3045 (-20) = pell203 := by decide +kernel
  have square : mpzPerfectSquareP 3045 = false := by decide +kernel
  have toobig : pell203.fits 3045 10 (55, 1) = false := by decide
  have degree : ((203 : UInt32).toNat : ℤ) * 15 = 3045 := rfl
  have limit : ((0 : UInt32) + 10).toNat = 10 := rfl
  refine ⟨_, 1, ?_, cm, member, q, n, ?_⟩
  · rw [if_neg nonempty, List.nil_append] at run
    have loop := @solutionLoop_first (fun L => freemanStep2 L 203) _ run toobig 10
    rw [findFreemanCurve, degree, limit]
    exact (findCurve_eq square pell (List.cons_ne_nil _ _) []).trans loop
  · rintro ⟨V, trace⟩
    rw [q, n] at trace
    have value : (203 : UInt32).toNat = 203 := rfl
    rw [value] at trace
    norm_num at trace
    omega

end Search

end Pbc.Ecc
