import Pbc.Gmp.Mpz
import Pbc.Number.Surd

/-!
# The search for curves of embedding degree 6

Curves over `F_q` whose order has a factor `r` that divides `q² - q + 1` are looked for
along the solutions of a Pell equation. The solver, the stepping through the solutions and
the splitting of the order are shared with the search for degree 10. The loops have fuel.
-/

open Pbc.Gmp Pbc.Number

namespace Pbc.Ecc

section Operations

/-- `struct pell_solution_s`: the minimal solution of `x² - D y² = 1`, and the solutions
that were found, in pairs. -/
structure PellSolution where
  minx : ℤ
  miny : ℤ
  solutions : List (ℤ × ℤ)
  deriving DecidableEq

/-- The search for the square factors of `N`. -/
def squareFactors (N : ℕ) : ℕ → ℕ → List ℕ
  | 0, _ => []
  | turns + 1, f =>
      if f * f > N then []
      else if N % (f * f) = 0 then f :: squareFactors N turns (f + 1)
      else squareFactors N turns (f + 1)

/-- The variables of the loop of `general_pell`. -/
structure PellState where
  P1 : ℤ
  Q1 : ℤ
  a1 : ℤ
  p0 : ℤ
  q0 : ℤ
  p1 : ℤ
  q1 : ℤ
  d : ℤ

/-- What `general_pell` starts with. -/
def pellInit (D : ℤ) : PellState :=
  let a0 := Int.sqrt D
  let Q1 := D - a0 * a0
  let a1 := (a0 + a0).tdiv Q1
  { P1 := a0, Q1 := Q1, a1 := a1, p0 := a0, q0 := 1, p1 := a0 * a1 + 1, q1 := a1, d := -1 }

/-- More of the continued fraction expansion, and the next convergent. -/
def pellNext (D : ℤ) (s : PellState) : PellState :=
  let P1 := s.a1 * s.Q1 - s.P1
  let Q1 := (D - P1 * P1) / s.Q1
  let a1 := (Int.sqrt D + P1).tdiv Q1
  { P1 := P1, Q1 := Q1, a1 := a1, p0 := s.p1, q0 := s.q1, p1 := a1 * s.p1 + s.p0,
    q1 := a1 * s.q1 + s.q0, d := -s.d }

/-- The solutions that one turn of the loop appends. -/
def pellFound (N : ℤ) (s : PellState) : List (ℤ × ℤ) :=
  let sgnN := if N > 0 then 1 else -1
  if s.d = sgnN then
    (squareFactors N.natAbs (N.natAbs + 1) 1).filterMap fun f =>
      if s.Q1 = (N.natAbs / (f * f) : ℕ) then some (s.p0 * f, s.q0 * f) else none
  else []

/-- The loop of `general_pell`. -/
def pellLoop (D N : ℤ) : ℕ → PellState → List (ℤ × ℤ) → Option PellSolution
  | 0, _, _ => none
  | fuel + 1, s, found =>
      let found := found ++ pellFound N s
      if Int.sqrt D + Int.sqrt D = s.a1 ∧ s.d = 1 then some ⟨s.p0, s.q0, found⟩
      else pellLoop D N fuel (pellNext D s) found

/-- `general_pell`. -/
def generalPell (fuel : ℕ) (D N : ℤ) : Option PellSolution := pellLoop D N fuel (pellInit D) []

/-- `struct cm_info_s`. -/
structure CmInfo where
  q : ℤ
  n : ℤ
  h : ℤ
  r : ℤ
  D : Int32
  k : Int32
  deriving DecidableEq

/-- The loop that divides `r` by a prime, and multiplies the cofactor. -/
def divideOut (p : ℤ) : ℕ → ℤ → ℤ → Option (ℤ × ℤ)
  | 0, _, _ => none
  | fuel + 1, r, cofac =>
      let cofac := cofac * p
      let r := r / p
      if r % p = 0 then divideOut p fuel r cofac else some (r, cofac)

/-- The division of `r` by a prime, where it is divisible. -/
def dividePrime (p r cofac : ℤ) : Option (ℤ × ℤ) :=
  if r % p = 0 then divideOut p r.natAbs r cofac else some (r, cofac)

/-- The loop that divides `r` by small primes until a prime is left; nothing is left where
the small primes do not suffice. -/
def cofacLoop : ℕ → ℤ → ℤ → ℤ → Option (Option (ℤ × ℤ))
  | 0, _, _, _ => none
  | fuel + 1, p, r, cofac => do
      let (r, cofac) ← dividePrime p r cofac
      if mpzProbabPrimeP r then return some (r, cofac)
      let p := mpzNextprime p
      if mpzSizeinbase2 p.toNat > 16 then return none
      cofacLoop fuel p r cofac

/-- The block that splits the order `n` into the prime `r` and the cofactor. -/
def splitOrder (n : ℤ) : Option (Option (ℤ × ℤ)) :=
  if mpzProbabPrimeP n then some (some (n, 1)) else cofacLoop (2 ^ 16) 2 n 1

/-- The last part of a `step2` routine: for a prime `q`, the order `n` is split and the
curve appended to `L`. -/
def appendCurve (k : Int32) (L : List CmInfo) (D : UInt32) (q n : ℤ) :
    Option (List CmInfo × ℕ) := do
  if ¬mpzProbabPrimeP q then return (L, 1)
  match ← splitOrder n with
  | none => return (L, 1)
  | some (r, cofac) =>
      return (L ++ [{ q := q, n := n, h := cofac, r := r, D := D.toInt32, k := k }], 0)

/-- `mnt_step2`. -/
def mntStep2 (L : List CmInfo) (D : UInt32) (U : ℤ) : Option (List CmInfo × ℕ) :=
  if U % 6 = 1 then
    let l := (U - 1) / 3
    appendCurve 6 L D (l * l + 1) (l * l + 1 + l)
  else if U % 6 = 5 then
    let l := (U + 1) / 3
    appendCurve 6 L D (l * l + 1) (l * l + 1 - l)
  else some (L, 1)

/-- The next solution: the product with the minimal solution. -/
def PellSolution.advance (ps : PellSolution) (D : ℤ) (s : ℤ × ℤ) : ℤ × ℤ :=
  (ps.minx * s.1 + ps.miny * s.2 * D, ps.minx * s.2 + ps.miny * s.1)

/-- Whether the next solution keeps to the limit, which the code gets as `bitlimit + 10`. -/
def PellSolution.fits (ps : PellSolution) (D : ℤ) (limit : ℕ) (s : ℤ × ℤ) : Bool :=
  2 * mpzSizeinbase2 (ps.advance D s).1.natAbs ≤ limit

variable (step2 : List CmInfo → ℤ → Option (List CmInfo × ℕ)) (ps : PellSolution) (D : ℤ)
  (limit : ℕ)

/-- One round through the solutions, and whether it has come to the limit. -/
def solutionRound : List (ℤ × ℤ) → List CmInfo → ℕ → Option (Bool × List (ℤ × ℤ) × List CmInfo × ℕ)
  | [], L, count => some (false, [], L, count)
  | s :: rest, L, count => do
      let (L, status) ← step2 L s.1
      let count := if status = 0 then count + 1 else count
      if ps.fits D limit s then
        let (toobig, rest, L, count) ← solutionRound rest L count
        return (toobig, ps.advance D s :: rest, L, count)
      else return (true, s :: rest, L, count)

/-- The rounds up to the limit. -/
def solutionLoop : ℕ → List (ℤ × ℤ) → List CmInfo → ℕ → Option (List CmInfo × ℕ)
  | 0, _, _, _ => none
  | fuel + 1, solutions, L, count => do
      let (toobig, solutions, L, count) ← solutionRound step2 ps D limit solutions L count
      if toobig then return (L, count)
      solutionLoop fuel solutions L count

/-- A search along the solutions of `x² - D y² = N`. -/
def findCurve (fuel : ℕ) (N : ℤ) (L : List CmInfo) : Option (List CmInfo × ℕ) := do
  if mpzPerfectSquareP D then return (L, 0)
  let ps ← generalPell fuel D N
  if ps.solutions = [] then return (L, 0)
  solutionLoop step2 ps D limit fuel ps.solutions L 0

/-- `find_mnt6_curve`. -/
def findMnt6Curve (fuel : ℕ) (L : List CmInfo) (D bitlimit : UInt32) : Option (List CmInfo × ℕ) :=
  findCurve (fun L => mntStep2 L D) (D * 3).toNat (bitlimit + 10).toNat fuel (-8) L

end Operations

section Pell

variable {D N : ℤ}

/-- A positive solution of `x² - D y² = N`. -/
structure IsSolution (D N : ℤ) (s : ℤ × ℤ) : Prop where
  norm : s.1 ^ 2 - D * s.2 ^ 2 = N
  positive : 0 < s.1 ∧ 0 < s.2

/-- The solutions of two Pell equations. -/
structure PellSolution.Solves (ps : PellSolution) (D N : ℤ) : Prop where
  minimal : IsSolution D 1 (ps.minx, ps.miny)
  solution : ∀ s ∈ ps.solutions, IsSolution D N s

/-- What holds in every turn of the loop of `general_pell`. -/
structure PellState.Holds (D : ℤ) (s : PellState) : Prop where
  reduced : Reduced D (Int.sqrt D) (s.P1, s.Q1)
  quotient : s.a1 = surdQuotient (Int.sqrt D) (s.P1, s.Q1)
  convergents : Convergents D (Int.sqrt D) s.d (s.P1, s.Q1) s.p0 s.q0 s.p1 s.q1

theorem surdFloor_sqrt (positive : 0 < D) (nonsquare : ¬IsSquare D) : SurdFloor D (Int.sqrt D) := by
  obtain ⟨n, rfl⟩ := Int.eq_ofNat_of_zero_le positive.le
  have square : n.sqrt * n.sqrt ≠ n := by
    intro root
    exact nonsquare ⟨(n.sqrt : ℤ), by exact_mod_cast root.symm⟩
  have below := n.sqrt_le
  have above := n.lt_succ_sqrt
  have root : Int.sqrt (n : ℤ) = (n.sqrt : ℤ) := Int.sqrt_natCast n
  rw [root]
  refine ⟨?_, ?_, ?_⟩
  · exact_mod_cast Nat.sqrt_pos.mpr (by exact_mod_cast positive)
  · rw [pow_two]
    exact_mod_cast lt_of_le_of_ne below square
  · rw [pow_two]
    exact_mod_cast above

private theorem tdiv_eq_quotient {a : ℤ} {t : ℤ × ℤ} (root : 0 < a) (reduced : Reduced D a t) :
    (a + t.1).tdiv t.2 = surdQuotient a t :=
  Int.tdiv_eq_ediv_of_nonneg (add_pos root reduced.pos).le

theorem pellInit_holds (floor : SurdFloor D (Int.sqrt D)) : (pellInit D).Holds D := by
  have reduced := floor.reduced
  have quotient := tdiv_eq_quotient floor.pos reduced
  have convergents := floor.convergents
  rw [pow_two] at reduced quotient convergents
  refine ⟨reduced, quotient, ?_⟩
  rw [← quotient] at convergents
  exact convergents

theorem pellNext_state {s : PellState} (holds : s.Holds D) :
    ((pellNext D s).P1, (pellNext D s).Q1) = surdStep D (Int.sqrt D) (s.P1, s.Q1) := by
  have quotient := holds.quotient
  simp only [pellNext, surdStep, ← quotient, pow_two]

theorem pellNext_holds (floor : SurdFloor D (Int.sqrt D)) {s : PellState} (holds : s.Holds D) :
    (pellNext D s).Holds D := by
  have state := pellNext_state holds
  have reduced := holds.reduced.step floor
  rw [← state] at reduced
  have quotient := tdiv_eq_quotient floor.pos reduced
  have convergents := holds.convergents.step floor holds.reduced
  rw [← state, ← quotient] at convergents
  exact ⟨reduced, quotient, convergents⟩

private theorem dvd_of_mem_squareFactors {N turns f g : ℕ} (member : g ∈ squareFactors N turns f)
    (positive : 0 < f) : g * g ∣ N ∧ 0 < g := by
  induction turns generalizing f with
  | zero => cases member
  | succ turns ih =>
    rw [squareFactors] at member
    split at member
    · cases member
    · split at member
      · next divides =>
        rcases List.mem_cons.mp member with rfl | member
        · exact ⟨Nat.dvd_of_mod_eq_zero divides, positive⟩
        · exact ih member (Nat.succ_pos f)
      · exact ih member (Nat.succ_pos f)

/-- A convergent of the right norm gives a solution. -/
theorem pellFound_solves {s : PellState} (holds : s.Holds D) {x : ℤ × ℤ}
    (member : x ∈ pellFound N s) : IsSolution D N x := by
  have norm := holds.convergents.norm
  obtain ⟨positive, positive'⟩ := holds.convergents.first
  by_cases sign : s.d = if N > 0 then 1 else -1
  · rw [pellFound, if_pos sign] at member
    obtain ⟨f, factor, found⟩ := List.mem_filterMap.mp member
    obtain ⟨divides, nonzero⟩ := dvd_of_mem_squareFactors factor one_pos
    have scale : (0 : ℤ) < f := by exact_mod_cast nonzero
    split at found
    · next den =>
      obtain rfl := Option.some.inj found
      have whole : s.Q1 * (f * f : ℕ) = N.natAbs := by
        rw [den]
        exact_mod_cast Nat.div_mul_cancel divides
      have signed : s.d * N.natAbs = N := by
        rw [sign]
        split <;> omega
      refine ⟨?_, mul_pos positive scale, mul_pos positive' scale⟩
      calc (s.p0 * f) ^ 2 - D * (s.q0 * f) ^ 2 = (s.p0 ^ 2 - D * s.q0 ^ 2) * (f * f) := by ring
        _ = s.d * (s.Q1 * (f * f : ℕ)) := by rw [norm]; push_cast; ring
        _ = N := by rw [whole, signed]
    · cases found
  · rw [pellFound, if_neg sign] at member
    cases member

/-- Where the loop of `general_pell` ends, the convergent has the norm one. -/
theorem pell_minimal {s : PellState} (holds : s.Holds D)
    (stop : Int.sqrt D + Int.sqrt D = s.a1 ∧ s.d = 1) : s.p0 ^ 2 - D * s.q0 ^ 2 = 1 := by
  have twice : surdQuotient (Int.sqrt D) (s.P1, s.Q1) = 2 * Int.sqrt D := by
    rw [← holds.quotient, ← stop.1, two_mul]
  have one : s.Q1 = 1 := congrArg Prod.snd (holds.reduced.quotient_eq_iff.mp twice)
  have norm := holds.convergents.norm
  rwa [stop.2, one_mul, one] at norm

/-- Where the expansion is back, its quotient is the one that ends the loop. -/
theorem PellState.Holds.quotient_of_returns {s : PellState} (holds : s.Holds D)
    (returns : (s.P1, s.Q1) = (Int.sqrt D, 1)) : Int.sqrt D + Int.sqrt D = s.a1 := by
  have twice := holds.reduced.quotient_eq_iff.mpr returns
  rw [← holds.quotient, two_mul] at twice
  exact twice.symm

/-- Every turn changes the sign. -/
theorem pellNext_sign {s : PellState} {k : ℕ} (sign : s.d * (-1) ^ (k + 1) = 1) :
    (pellNext D s).d * (-1) ^ k = 1 := by
  have next : (pellNext D s).d = -s.d := rfl
  rw [pow_succ] at sign
  rw [next]
  linarith

/-- From its start the expansion comes back, with the sign that the loop waits for. -/
theorem pellInit_returns (floor : SurdFloor D (Int.sqrt D)) :
    ∃ k, (surdStep D (Int.sqrt D))^[k] ((pellInit D).P1, (pellInit D).Q1) = (Int.sqrt D, 1) ∧
      (pellInit D).d * (-1) ^ k = 1 := by
  obtain ⟨k, odd, returns⟩ := surd_returns floor
  rw [pow_two] at returns
  have first : (pellInit D).d = -1 := rfl
  refine ⟨k, returns, ?_⟩
  rw [first, odd.neg_one_pow]
  rfl

/-- The loop of `general_pell` ends, at the latest where the expansion is back with the
sign that it waits for. -/
private theorem pellLoop_solves (floor : SurdFloor D (Int.sqrt D)) {k : ℕ} {s : PellState}
    (holds : s.Holds D) (returns : (surdStep D (Int.sqrt D))^[k] (s.P1, s.Q1) = (Int.sqrt D, 1))
    (sign : s.d * (-1) ^ k = 1) {found : List (ℤ × ℤ)}
    (solved : ∀ x ∈ found, IsSolution D N x) :
    ∃ ps, (∀ fuel, k < fuel → pellLoop D N fuel s found = some ps) ∧ ps.Solves D N := by
  have all {s : PellState} (holds : s.Holds D) {found : List (ℤ × ℤ)}
      (solved : ∀ x ∈ found, IsSolution D N x) :
      ∀ x ∈ found ++ pellFound N s, IsSolution D N x := by
    intro x member
    rcases List.mem_append.mp member with member | member
    · exact solved x member
    · exact pellFound_solves holds member
  have stops {k : ℕ} {s : PellState} (holds : s.Holds D) {found : List (ℤ × ℤ)}
      (solved : ∀ x ∈ found, IsSolution D N x)
      (stop : Int.sqrt D + Int.sqrt D = s.a1 ∧ s.d = 1) :
      ∃ ps, (∀ fuel, k < fuel → pellLoop D N fuel s found = some ps) ∧ ps.Solves D N := by
    refine ⟨⟨s.p0, s.q0, found ++ pellFound N s⟩, fun fuel more => ?_,
      ⟨pell_minimal holds stop, holds.convergents.first⟩, all holds solved⟩
    obtain ⟨fuel, rfl⟩ := Nat.exists_eq_succ_of_ne_zero (Nat.ne_of_gt (Nat.zero_lt_of_lt more))
    simp only [pellLoop, if_pos stop]
  induction k generalizing s found with
  | zero =>
    rw [pow_zero, mul_one] at sign
    exact stops holds solved ⟨holds.quotient_of_returns returns, sign⟩
  | succ k ih =>
    by_cases stop : Int.sqrt D + Int.sqrt D = s.a1 ∧ s.d = 1
    · exact stops holds solved stop
    · rw [Function.iterate_succ_apply, ← pellNext_state holds] at returns
      obtain ⟨ps, run, solves⟩ :=
        ih (pellNext_holds floor holds) returns (pellNext_sign sign) (all holds solved)
      refine ⟨ps, fun fuel more => ?_, solves⟩
      obtain ⟨fuel, rfl⟩ := Nat.exists_eq_succ_of_ne_zero (Nat.ne_of_gt (Nat.zero_lt_of_lt more))
      simp only [pellLoop, if_neg stop]
      exact run fuel (Nat.lt_of_succ_lt_succ more)

/-- `general_pell` ends, and what it finds are solutions. -/
theorem generalPell_solves (N : ℤ) (positive : 0 < D) (nonsquare : ¬IsSquare D) :
    ∃ k ps, (∀ fuel, k < fuel → generalPell fuel D N = some ps) ∧ ps.Solves D N := by
  have floor := surdFloor_sqrt positive nonsquare
  obtain ⟨k, returns, sign⟩ := pellInit_returns floor
  obtain ⟨ps, run, solves⟩ := pellLoop_solves floor (pellInit_holds floor) returns sign
    (List.forall_mem_nil _)
  exact ⟨k, ps, run, solves⟩

theorem PellSolution.Solves.advance {ps : PellSolution} (solves : ps.Solves D N) (positive : 0 < D)
    {s : ℤ × ℤ} (solution : IsSolution D N s) : IsSolution D N (ps.advance D s) := by
  obtain ⟨unit, first, second⟩ := solves.minimal
  obtain ⟨norm, x, y⟩ := solution
  refine ⟨?_, ?_, ?_⟩
  · calc (ps.minx * s.1 + ps.miny * s.2 * D) ^ 2 - D * (ps.minx * s.2 + ps.miny * s.1) ^ 2 =
          (ps.minx ^ 2 - D * ps.miny ^ 2) * (s.1 ^ 2 - D * s.2 ^ 2) := by ring
      _ = N := by rw [unit, norm, one_mul]
  · show 0 < ps.minx * s.1 + ps.miny * s.2 * D
    positivity
  · show 0 < ps.minx * s.2 + ps.miny * s.1
    positivity

/-- The next solution is at least twice as large. -/
theorem PellSolution.Solves.double {ps : PellSolution} (solves : ps.Solves D N) (positive : 0 < D)
    {s : ℤ × ℤ} (solution : IsSolution D N s) : 2 * s.1 ≤ (ps.advance D s).1 := by
  obtain ⟨unit, first, second⟩ := solves.minimal
  obtain ⟨-, x, y⟩ := solution
  have large : 2 ≤ ps.minx := by
    have product : 0 < D * ps.miny ^ 2 := by positivity
    by_contra small
    have one : ps.minx = 1 := by omega
    have norm : ps.minx ^ 2 - D * ps.miny ^ 2 = 1 := unit
    rw [one] at norm
    linarith
  have rest : 0 < ps.miny * s.2 * D := by positivity
  show 2 * s.1 ≤ ps.minx * s.1 + ps.miny * s.2 * D
  linarith [mul_le_mul_of_nonneg_right large x.le]

end Pell

section Rounds

variable (ps : PellSolution) (D : ℤ) (limit : ℕ)

/-- The solutions that a round comes to: those up to the first whose successor is too big. -/
def PellSolution.reached : List (ℤ × ℤ) → List (ℤ × ℤ)
  | [] => []
  | s :: rest => s :: if ps.fits D limit s then reached rest else []

/-- The solutions that the rounds from some solutions on come to: all before a solution, in
the rounds before and in its own, have successors within the limit. -/
def PellSolution.Visits (solutions : List (ℤ × ℤ)) (s : ℤ × ℤ) : Prop :=
  ∃ k before after, solutions.map (ps.advance D)^[k] = before ++ s :: after ∧
    (∀ t ∈ before, ps.fits D limit t = true) ∧
    ∀ j < k, ∀ t ∈ solutions.map (ps.advance D)^[j], ps.fits D limit t = true

/-- A `step2` routine appends the curves of `out`, at most one, and tells whether it has. -/
structure Appends (step2 : List CmInfo → ℤ → Option (List CmInfo × ℕ)) (out : ℤ → List CmInfo)
    (U : ℤ) : Prop where
  run : ∀ L, step2 L U = some (L ++ out U, if out U = [] then 1 else 0)
  once : (out U).length ≤ 1

variable {ps D limit}

theorem PellSolution.mem_reached {solutions : List (ℤ × ℤ)} {s : ℤ × ℤ} :
    s ∈ ps.reached D limit solutions ↔
      ∃ before after, solutions = before ++ s :: after ∧ ∀ t ∈ before, ps.fits D limit t = true := by
  induction solutions with
  | nil => simp [reached]
  | cons t rest ih =>
    rw [reached, List.mem_cons]
    constructor
    · rintro (rfl | member)
      · exact ⟨[], rest, rfl, nofun⟩
      · split at member
        · next fits =>
          obtain ⟨before, after, rfl, all⟩ := ih.mp member
          exact ⟨t :: before, after, rfl, List.forall_mem_cons.mpr ⟨fits, all⟩⟩
        · cases member
    · rintro ⟨before, after, parts, all⟩
      cases before with
      | nil => exact Or.inl (List.cons.inj parts).1.symm
      | cons t' before =>
        obtain ⟨rfl, tail⟩ := List.cons.inj parts
        obtain ⟨fits, all⟩ := List.forall_mem_cons.mp all
        rw [if_pos fits]
        exact Or.inr (ih.mpr ⟨before, after, tail, all⟩)

/-- A search comes to the solutions of its first round and, where that ends within the
limit, to those of the rounds behind. -/
theorem PellSolution.visits_iff {solutions : List (ℤ × ℤ)} {s : ℤ × ℤ} :
    ps.Visits D limit solutions s ↔ s ∈ ps.reached D limit solutions ∨
      (solutions.all (ps.fits D limit) = true ∧
        ps.Visits D limit (solutions.map (ps.advance D)) s) := by
  have shift (k : ℕ) : (solutions.map (ps.advance D)).map (ps.advance D)^[k] =
      solutions.map (ps.advance D)^[k + 1] := by
    rw [List.map_map, ← Function.iterate_succ]
  have first : solutions.map (ps.advance D)^[0] = solutions := by
    rw [Function.iterate_zero, List.map_id]
  rw [mem_reached, List.all_eq_true]
  constructor
  · rintro ⟨k, before, after, split, all, rounds⟩
    cases k with
    | zero => exact Or.inl ⟨before, after, first ▸ split, all⟩
    | succ k =>
      refine Or.inr ⟨first ▸ rounds 0 (Nat.succ_pos k), k, before, after, ?_, all, ?_⟩
      · rw [shift, split]
      · intro j less
        rw [shift]
        exact rounds (j + 1) (Nat.succ_lt_succ less)
  · rintro (⟨before, after, split, all⟩ | ⟨round, k, before, after, split, all, rounds⟩)
    · exact ⟨0, before, after, first.trans split, all, nofun⟩
    · refine ⟨k + 1, before, after, ?_, all, ?_⟩
      · rw [← shift, split]
      · intro j less
        cases j with
        | zero => rwa [first]
        | succ j =>
          rw [← shift]
          exact rounds j (Nat.lt_of_succ_lt_succ less)

variable {step2 : List CmInfo → ℤ → Option (List CmInfo × ℕ)} {out : ℤ → List CmInfo}

variable (ps D limit) in
/-- A round appends the curves of the solutions that it comes to, and counts them. -/
theorem solutionRound_reached {solutions : List (ℤ × ℤ)}
    (appends : ∀ s ∈ solutions, Appends step2 out s.1) (L : List CmInfo) (count : ℕ) :
    ∃ rest, solutionRound step2 ps D limit solutions L count =
        some (!solutions.all (ps.fits D limit), rest,
          L ++ (ps.reached D limit solutions).flatMap (out ·.1),
          count + ((ps.reached D limit solutions).flatMap (out ·.1)).length) ∧
      (solutions.all (ps.fits D limit) = true → rest = solutions.map (ps.advance D)) := by
  induction solutions generalizing L count with
  | nil => exact ⟨[], by simp [solutionRound, PellSolution.reached], fun _ => rfl⟩
  | cons s rest ih =>
    obtain ⟨⟨run, once⟩, appends⟩ := List.forall_mem_cons.mp appends
    have counted : (if out s.1 = [] then count else count + 1) = count + (out s.1).length := by
      by_cases empty : out s.1 = []
      · simp [empty]
      · have one := List.length_pos_of_ne_nil empty
        rw [if_neg empty]
        omega
    by_cases fits : ps.fits D limit s = true
    · obtain ⟨rest', round, same⟩ := ih appends (L ++ out s.1) (count + (out s.1).length)
      refine ⟨ps.advance D s :: rest', ?_, ?_⟩
      · simp [solutionRound, run, counted, fits, round, PellSolution.reached, add_assoc]
      · intro all
        rw [List.all_cons, fits, Bool.true_and] at all
        rw [same all, List.map_cons]
    · refine ⟨s :: rest, ?_, ?_⟩
      · simp [solutionRound, run, counted, fits, PellSolution.reached]
      · intro all
        rw [List.all_cons, Bool.and_eq_true] at all
        exact absurd all.1 fits

theorem mpzSizeinbase2_double {m n : ℕ} (positive : 0 < m) (double : 2 * m ≤ n) :
    mpzSizeinbase2 m + 1 ≤ mpzSizeinbase2 n := by
  have grows := Nat.log_mono_right (b := 2) double
  rw [mul_comm, Nat.log_mul_base (by decide) positive.ne'] at grows
  simp only [mpzSizeinbase2, Nat.log2_eq_log_two]
  omega

/-- The rounds end, since the solutions grow; they append the curves of the solutions that
they come to, and count them. -/
theorem solutionLoop_visits {N : ℤ} (solves : ps.Solves D N) (positive : 0 < D)
    (appends : ∀ s, IsSolution D N s → Appends step2 out s.1) {fuel m : ℕ}
    {solutions : List (ℤ × ℤ)} (all : ∀ s ∈ solutions, IsSolution D N s) {s : ℤ × ℤ}
    (member : s ∈ solutions) (near : limit ≤ 2 * mpzSizeinbase2 s.1.natAbs + m) (enough : m < fuel)
    (L : List CmInfo) (count : ℕ) :
    ∃ visited : List (ℤ × ℤ), (∀ t, t ∈ visited ↔ ps.Visits D limit solutions t) ∧
      (∀ t ∈ visited, IsSolution D N t) ∧
      solutionLoop step2 ps D limit fuel solutions L count =
        some (L ++ visited.flatMap (out ·.1), count + (visited.flatMap (out ·.1)).length) := by
  induction fuel generalizing solutions s m L count with
  | zero => cases enough
  | succ fuel ih =>
    obtain ⟨rest, round, same⟩ := solutionRound_reached ps D limit
      (fun s member => appends s (all s member)) L count
    have reached : ∀ t ∈ ps.reached D limit solutions, IsSolution D N t := by
      intro t member
      obtain ⟨before, after, rfl, -⟩ := PellSolution.mem_reached.mp member
      exact all t (by simp)
    by_cases within : solutions.all (ps.fits D limit) = true
    · obtain rfl := same within
      have fits := List.all_eq_true.mp within s member
      have solution := all s member
      have double := solves.double positive solution
      have grown : mpzSizeinbase2 s.1.natAbs + 1 ≤ mpzSizeinbase2 (ps.advance D s).1.natAbs := by
        have first := solution.positive.1
        exact mpzSizeinbase2_double (Int.natAbs_pos.mpr first.ne') (by omega)
      have bound := of_decide_eq_true fits
      have next : ∀ t ∈ solutions.map (ps.advance D), IsSolution D N t := by
        intro t member
        obtain ⟨t, inside, rfl⟩ := List.mem_map.mp member
        exact solves.advance positive (all t inside)
      have nearer : limit ≤ 2 * mpzSizeinbase2 (ps.advance D s).1.natAbs + (m - 2) := by omega
      obtain ⟨visited, visits, solutions', run⟩ := ih next (List.mem_map_of_mem member) nearer
        (by omega) (L ++ (ps.reached D limit solutions).flatMap (out ·.1))
        (count + ((ps.reached D limit solutions).flatMap (out ·.1)).length)
      refine ⟨ps.reached D limit solutions ++ visited, fun t => ?_, ?_, ?_⟩
      · rw [PellSolution.visits_iff, List.mem_append, visits]
        simp only [within, true_and]
      · intro t member
        rcases List.mem_append.mp member with member | member
        · exact reached t member
        · exact solutions' t member
      · simp only [solutionLoop, round, within, Option.bind_eq_bind, Option.bind_some, Bool.not_true,
          Bool.false_eq_true, if_false, run, List.flatMap_append, List.length_append,
          List.append_assoc, add_assoc]
    · refine ⟨ps.reached D limit solutions, fun t => ?_, reached, ?_⟩
      · rw [PellSolution.visits_iff]
        simp [within]
      · simp [solutionLoop, round, within]

end Rounds

section Orders

/-- A prime times smaller primes of at most 16 bits. -/
def Splits (n : ℕ) : Prop :=
  ∃ h r, n = h * r ∧ r.Prime ∧ ∀ l, l.Prime → l ∣ h → l < r ∧ l < 2 ^ 16

/-- All factors that are equal to a prime are divided out. -/
private theorem divideOut_spec {p fuel r c : ℕ} (two : 2 ≤ p) (positive : 0 < r) (divides : p ∣ r)
    (enough : r ≤ fuel) : ∃ k r' : ℕ, divideOut p fuel r c = some ((r' : ℤ), ((c * p ^ k : ℕ) : ℤ)) ∧
      r = p ^ k * r' ∧ ¬p ∣ r' := by
  induction fuel generalizing r c with
  | zero => omega
  | succ fuel ih =>
    obtain ⟨r, rfl⟩ := divides
    have quotient : ((p * r : ℕ) : ℤ) / p = r := by
      rw [Nat.cast_mul]
      exact Int.mul_ediv_cancel_left _ (by omega)
    have product : (c : ℤ) * p = (c * p : ℕ) := by rw [Nat.cast_mul]
    have positive' : 0 < r := Nat.pos_of_mul_pos_left positive
    by_cases more : p ∣ r
    · have again : ((r : ℕ) : ℤ) % p = 0 := by exact_mod_cast Nat.mod_eq_zero_of_dvd more
      have smaller : r < p * r := by nlinarith
      obtain ⟨k, r', run, whole, rest⟩ := ih (c := c * p) positive' more (by omega)
      refine ⟨k + 1, r', ?_, ?_, rest⟩
      · rw [divideOut, quotient, product]
        simp only [again, if_true, run]
        rw [pow_succ]
        congr 3
        ring
      · rw [whole, pow_succ]
        ring
    · have last : ¬((r : ℕ) : ℤ) % p = 0 := by
        intro zero
        exact more (Nat.dvd_of_mod_eq_zero (by exact_mod_cast zero))
      refine ⟨1, r, ?_, by rw [pow_one], more⟩
      rw [divideOut, quotient, product]
      simp only [last, if_false, pow_one]

private theorem mod_eq_zero_iff {p r : ℕ} : (r : ℤ) % p = 0 ↔ p ∣ r := by
  rw [← Int.natCast_dvd_natCast, Int.dvd_iff_emod_eq_zero]

private theorem mpzSizeinbase2_le_iff {n : ℕ} (positive : n ≠ 0) (k : ℕ) :
    mpzSizeinbase2 n > k ↔ 2 ^ k ≤ n := by
  rw [← Nat.le_log2 positive, mpzSizeinbase2]
  omega

private theorem dividePrime_spec {p r : ℕ} (prime : p.Prime) (positive : 0 < r) (c : ℕ) :
    ∃ k r' : ℕ, dividePrime p r c = some ((r' : ℤ), ((c * p ^ k : ℕ) : ℤ)) ∧ r = p ^ k * r' ∧
      ¬p ∣ r' := by
  rw [dividePrime]
  by_cases divides : p ∣ r
  · rw [if_pos (mod_eq_zero_iff.mpr divides)]
    exact divideOut_spec prime.two_le positive divides le_rfl
  · rw [if_neg fun zero => divides (mod_eq_zero_iff.mp zero)]
    exact ⟨0, r, by rw [pow_zero, mul_one], by rw [pow_zero, one_mul], divides⟩

/-- What splits before a division splits behind it, into larger primes. -/
private theorem Splits.divide {p k r r' : ℕ} (splits : Splits r) (prime : p.Prime)
    (composite : ¬r.Prime) (rough : ∀ l, l.Prime → l ∣ r → p ≤ l) (whole : r = p ^ k * r')
    (rough' : ∀ l, l.Prime → l ∣ r' → p < l) :
    ∃ h r₀, r' = h * r₀ ∧ r₀.Prime ∧ ∀ l, l.Prime → l ∣ h → p < l ∧ l < r₀ ∧ l < 2 ^ 16 := by
  obtain ⟨h, r₀, product, prime₀, factors⟩ := splits
  have factor : h ≠ 1 := by
    rintro rfl
    exact composite (by rwa [product, one_mul])
  obtain ⟨l, prime', divides⟩ := Nat.exists_prime_and_dvd factor
  have above := rough l prime' (product ▸ divides.mul_right r₀)
  have other : r₀ ≠ p := by
    have := (factors l prime' divides).1
    omega
  have inside : r₀ ∣ r' := by
    have divides : r₀ ∣ p ^ k * r' := whole ▸ product ▸ dvd_mul_left r₀ h
    refine (prime₀.dvd_mul.mp divides).resolve_left fun power => other ?_
    exact (Nat.prime_dvd_prime_iff_eq prime₀ prime).mp (prime₀.dvd_of_dvd_pow power)
  obtain ⟨h', rfl⟩ := inside
  have cofactor : h = p ^ k * h' := by
    refine Nat.eq_of_mul_eq_mul_right prime₀.pos ?_
    rw [← product, whole]
    ring
  refine ⟨h', r₀, mul_comm _ _, prime₀, fun l prime' divides => ⟨?_, ?_⟩⟩
  · exact rough' l prime' (divides.mul_left r₀)
  · exact factors l prime' (cofactor ▸ divides.mul_left _)

/-- The loop over the small primes ends, and it leaves a prime exactly if a prime times
smaller primes of at most 16 bits is left. -/
private theorem cofacLoop_spec {fuel p r c : ℕ} (prime : p.Prime) (positive : 0 < r)
    (composite : ¬r.Prime) (small : p < 2 ^ 16) (enough : 2 ^ 16 ≤ p + fuel)
    (rough : ∀ l, l.Prime → l ∣ r → p ≤ l) (smooth : ∀ l, l.Prime → l ∣ c → l < p) :
    (cofacLoop fuel p r c = some none ∧ ¬Splits r) ∨
      ∃ r' c' : ℕ, cofacLoop fuel p r c = some (some ((r' : ℤ), (c' : ℤ))) ∧ c' * r' = c * r ∧
        r'.Prime ∧ ∀ l, l.Prime → l ∣ c' → l < r' ∧ l < 2 ^ 16 := by
  induction fuel generalizing p r c with
  | zero => omega
  | succ fuel ih =>
    obtain ⟨k, r', run, whole, rest⟩ := dividePrime_spec prime positive c
    have positive' : 0 < r' := Nat.pos_of_ne_zero fun zero => positive.ne' (by rw [whole, zero, mul_zero])
    have rough' : ∀ l, l.Prime → l ∣ r' → p < l := by
      intro l prime' divides
      refine lt_of_le_of_ne (rough l prime' (whole ▸ divides.mul_left _)) ?_
      rintro rfl
      exact rest divides
    have smooth' : ∀ l, l.Prime → l ∣ c * p ^ k → l ≤ p := by
      intro l prime' divides
      rcases prime'.dvd_mul.mp divides with divides | divides
      · exact (smooth l prime' divides).le
      · exact Nat.le_of_dvd prime.pos (prime'.dvd_of_dvd_pow divides)
    by_cases last : r'.Prime
    · refine Or.inr ⟨r', c * p ^ k, ?_, ?_, last, fun l prime' divides => ?_⟩
      · simp only [cofacLoop, run, Option.bind_eq_bind, Option.bind_some,
          (mpzProbabPrimeP_natCast r').mpr last, if_true]
        rfl
      · rw [whole, mul_assoc]
      · have below := smooth' l prime' divides
        exact ⟨lt_of_le_of_lt below (rough' r' last dvd_rfl), lt_of_le_of_lt below small⟩
    · have split := fun splits : Splits r => splits.divide prime composite rough whole rough'
      obtain ⟨p', next, prime', above, least⟩ := mpzNextprime_natCast p
      have composite' : ¬mpzProbabPrimeP (r' : ℤ) = true := fun test =>
        last ((mpzProbabPrimeP_natCast r').mp test)
      have size : mpzSizeinbase2 (p' : ℤ).toNat > 16 ↔ 2 ^ 16 ≤ p' := by
        rw [Int.toNat_natCast, mpzSizeinbase2_le_iff prime'.ne_zero]
      by_cases large : 2 ^ 16 ≤ p'
      · refine Or.inl ⟨?_, fun splits => ?_⟩
        · simp only [cofacLoop, run, Option.bind_eq_bind, Option.bind_some, composite',
            next, size.mpr large, if_true]
          rfl
        · obtain ⟨h, r₀, product, prime₀, factors⟩ := split splits
          have factor : h ≠ 1 := by
            rintro rfl
            exact last (by rwa [product, one_mul])
          obtain ⟨l, prime'', divides⟩ := Nat.exists_prime_and_dvd factor
          obtain ⟨more, -, bits⟩ := factors l prime'' divides
          exact absurd (least l prime'' more) (by omega)
      · have step : cofacLoop (fuel + 1) p r c = cofacLoop fuel p' r' (c * p ^ k : ℕ) := by
          simp only [cofacLoop, run, Option.bind_eq_bind, Option.bind_some, composite', if_false,
            next, mt size.mp large]
          rfl
        rw [step]
        rcases ih prime' positive' last (not_le.mp large) (by omega)
          (fun l prime'' divides => least l prime'' (rough' l prime'' divides))
          (fun l prime'' divides => lt_of_le_of_lt (smooth' l prime'' divides) above) with
          ⟨run', none⟩ | ⟨r'', c', run', product, prime'', factors⟩
        · refine Or.inl ⟨run', fun splits => ?_⟩
          obtain ⟨h, r₀, product, prime₀, factors⟩ := split splits
          exact none ⟨h, r₀, product, prime₀, fun l prime'' divides => (factors l prime'' divides).2⟩
        · refine Or.inr ⟨r'', c', run', ?_, prime'', factors⟩
          rw [product, whole, mul_assoc]

/-- An order that is split, as a cofactor and a prime, or not at all. -/
theorem splitOrder_spec {n : ℕ} (positive : 0 < n) :
    (splitOrder n = some none ∧ ¬Splits n) ∨
      ∃ r h : ℕ, splitOrder n = some (some ((r : ℤ), (h : ℤ))) ∧ n = h * r ∧ Splits n := by
  rw [splitOrder]
  by_cases prime : n.Prime
  · rw [if_pos ((mpzProbabPrimeP_natCast n).mpr prime)]
    refine Or.inr ⟨n, 1, by rw [Nat.cast_one], (one_mul n).symm, 1, n, (one_mul n).symm, prime, ?_⟩
    intro l prime' divides
    exact absurd (Nat.dvd_one.mp divides) prime'.ne_one
  · rw [if_neg (mt (mpzProbabPrimeP_natCast n).mp prime)]
    have smooth : ∀ l, l.Prime → l ∣ 1 → l < 2 := fun l prime' divides =>
      absurd (Nat.dvd_one.mp divides) prime'.ne_one
    have spec := @cofacLoop_spec (2 ^ 16) 2 n 1 Nat.prime_two positive prime (by decide) (by decide)
      (fun l prime' _ => prime'.two_le) smooth
    rw [Nat.cast_ofNat, Nat.cast_one] at spec
    rcases spec with rejected | ⟨r, h, run, product, prime', factors⟩
    · exact Or.inl rejected
    · rw [one_mul] at product
      exact Or.inr ⟨r, h, run, product.symm, h, r, product.symm, prime', factors⟩

/-- What a `step2` routine appends to an empty array. -/
def outOf (step2 : List CmInfo → ℤ → Option (List CmInfo × ℕ)) (U : ℤ) : List CmInfo :=
  ((step2 [] U).map Prod.fst).getD []

theorem Appends.of_run {step2 : List CmInfo → ℤ → Option (List CmInfo × ℕ)} {U : ℤ}
    {out : List CmInfo} (run : ∀ L, step2 L U = some (L ++ out, if out = [] then 1 else 0))
    (once : out.length ≤ 1) : Appends step2 (outOf step2) U ∧ outOf step2 U = out := by
  have same : outOf step2 U = out := by
    rw [outOf, run]
    rfl
  exact ⟨⟨fun L => same ▸ run L, same ▸ once⟩, same⟩

/-- A curve is appended exactly if `q` is prime and the order splits, and its order is then
the product of the cofactor and `r`. -/
theorem appendCurve_spec (k : Int32) (D : UInt32) (q : ℤ) {n : ℕ} (positive : 0 < n) :
    ∃ out : List CmInfo, (∀ L, appendCurve k L D q n = some (L ++ out, if out = [] then 1 else 0)) ∧
      out.length ≤ 1 ∧ (out ≠ [] ↔ q.natAbs.Prime ∧ Splits n) ∧
      ∀ cm ∈ out, cm.q = q ∧ cm.n = n ∧ cm.n = cm.h * cm.r ∧ cm.k = k := by
  by_cases prime : mpzProbabPrimeP q = true
  · have exact_prime : q.natAbs.Prime := of_decide_eq_true prime
    rcases splitOrder_spec positive with ⟨run, whole⟩ | ⟨r, h, run, product, splits⟩
    · refine ⟨[], fun L => ?_, Nat.zero_le 1, by simp [whole], nofun⟩
      simp [appendCurve, prime, run]
    · refine ⟨[{ q := q, n := n, h := h, r := r, D := D.toInt32, k := k }], fun L => ?_, le_rfl,
        by simp [exact_prime, splits], ?_⟩
      · simp [appendCurve, prime, run]
      · intro cm member
        obtain rfl := List.mem_singleton.mp member
        refine ⟨rfl, rfl, ?_, rfl⟩
        rw [product]
        exact Nat.cast_mul h r
  · have composite : ¬q.natAbs.Prime := fun prime' => prime (decide_eq_true prime')
    refine ⟨[], fun L => ?_, Nat.zero_le 1, by simp [composite], nofun⟩
    simp [appendCurve, prime]

end Orders

section Search

/-- The parameters of a curve over `F_q` with the discriminant `D` for the method of complex
multiplication, and with an embedding degree that belongs to the polynomial `Φ`. -/
structure CmInfo.Sound (cm : CmInfo) (D : ℤ) (Φ : ℤ → ℤ) : Prop where
  order : cm.n = cm.h * cm.r
  embedding : cm.r ∣ Φ cm.q
  norm : ∃ V, 4 * cm.q - (cm.q + 1 - cm.n) ^ 2 = D * V ^ 2

/-- A search that finds solutions runs through their rounds. -/
theorem findCurve_eq {step2 : List CmInfo → ℤ → Option (List CmInfo × ℕ)} {D N : ℤ} {limit fuel : ℕ}
    {ps : PellSolution} (square : mpzPerfectSquareP D = false)
    (pell : generalPell fuel D N = some ps) (some : ps.solutions ≠ []) (L : List CmInfo) :
    findCurve step2 D limit fuel N L = solutionLoop step2 ps D limit fuel ps.solutions L 0 := by
  simp only [findCurve, square, pell, Option.bind_eq_bind, Option.bind_some, some,
    Bool.false_eq_true, if_false]

/-- A search ends, and it appends and counts the curves of the solutions that it comes to. -/
theorem findCurve_visits {step2 : List CmInfo → ℤ → Option (List CmInfo × ℕ)} {D N : ℤ}
    (positive : 0 < D) (nonsquare : ¬IsSquare D) (limit : ℕ)
    (appends : ∀ s, IsSolution D N s → Appends step2 (outOf step2) s.1) (L : List CmInfo) :
    ∃ k ps, (∀ fuel, k < fuel → generalPell fuel D N = some ps) ∧ ps.Solves D N ∧
      ∀ fuel, k < fuel → ∃ visited : List (ℤ × ℤ),
        (∀ s, s ∈ visited ↔ ps.Visits D limit ps.solutions s) ∧
        (∀ s ∈ visited, IsSolution D N s) ∧
        findCurve step2 D limit fuel N L =
          some (L ++ visited.flatMap (outOf step2 ·.1),
            (visited.flatMap (outOf step2 ·.1)).length) := by
  obtain ⟨k, ps, pell, solves⟩ := generalPell_solves N positive nonsquare
  have square : mpzPerfectSquareP D = false := by
    rw [Bool.eq_false_iff]
    intro test
    exact nonsquare ⟨Int.sqrt D, (of_decide_eq_true test).symm⟩
  refine ⟨max k limit, ps, fun fuel more => pell fuel (lt_of_le_of_lt (le_max_left _ _) more),
    solves, fun fuel more => ?_⟩
  have pell' := pell fuel (lt_of_le_of_lt (le_max_left _ _) more)
  by_cases none : ps.solutions = []
  · refine ⟨[], fun s => ?_, nofun, ?_⟩
    · simp [PellSolution.Visits, none]
    · simp [findCurve, square, pell', none]
  · obtain ⟨s, member⟩ := List.exists_mem_of_ne_nil _ none
    obtain ⟨visited, visits, solutions, run⟩ := solutionLoop_visits solves positive appends
      solves.solution member (Nat.le_add_left limit _)
      (lt_of_le_of_lt (le_max_right _ _) more) L 0
    rw [Nat.zero_add] at run
    refine ⟨visited, visits, solutions, ?_⟩
    rw [findCurve_eq square pell' none, run]

/-- What a `step2` routine appends where it has got to its last part. -/
theorem outOf_appendCurve {step2 : List CmInfo → ℤ → Option (List CmInfo × ℕ)} {U q n : ℤ}
    {k : Int32} {D : UInt32} (step : ∀ L, step2 L U = appendCurve k L D q n) (positive : 0 < n) :
    Appends step2 (outOf step2) U ∧ (outOf step2 U ≠ [] ↔ q.natAbs.Prime ∧ Splits n.natAbs) ∧
      ∀ cm ∈ outOf step2 U, cm.q = q ∧ cm.n = n ∧ cm.n = cm.h * cm.r ∧ cm.k = k := by
  obtain ⟨m, rfl⟩ := Int.eq_ofNat_of_zero_le positive.le
  obtain ⟨out, run, once, some, order⟩ := appendCurve_spec k D q (Int.natCast_pos.mp positive)
  obtain ⟨appends, same⟩ := Appends.of_run (fun L => (step L).trans (run L)) once
  rw [same]
  exact ⟨appends, some, order⟩

/-- A curve is sound whose order has the right multiple and the right trace. -/
theorem CmInfo.Sound.of_order {cm : CmInfo} {q n D : ℤ} {Φ : ℤ → ℤ}
    (order : cm.q = q ∧ cm.n = n ∧ cm.n = cm.h * cm.r) (divides : n ∣ Φ q)
    (norm : ∃ V, 4 * q - (q + 1 - n) ^ 2 = D * V ^ 2) : cm.Sound D Φ := by
  obtain ⟨rfl, rfl, product⟩ := order
  exact ⟨product, (Dvd.intro_left _ product.symm).trans divides, norm⟩

/-- The order is a factor of `q² - q + 1`, and the Pell equation gives the discriminant. -/
private theorem mnt_identities {l D y : ℤ} (solution : (3 * l + 1) ^ 2 - 3 * D * y ^ 2 = -8) :
    0 < l * l + 1 + l ∧ l * l + 1 + l ∣ (l * l + 1) ^ 2 - (l * l + 1) + 1 ∧
      ∃ V, 4 * (l * l + 1) - (l * l + 1 + 1 - (l * l + 1 + l)) ^ 2 = D * V ^ 2 :=
  ⟨by nlinarith [sq_nonneg (2 * l + 1)], ⟨l * l + 1 - l, by ring⟩, y, by linarith⟩

/-- A solution of the Pell equation is turned into a sound curve or into none. -/
theorem mntStep2_sound (D : UInt32) {s : ℤ × ℤ} (solution : IsSolution (3 * D.toNat) (-8) s) :
    Appends (fun L => mntStep2 L D) (outOf fun L => mntStep2 L D) s.1 ∧
      ∀ cm ∈ outOf (fun L => mntStep2 L D) s.1,
        cm.k = 6 ∧ cm.Sound D.toNat fun q => q ^ 2 - q + 1 := by
  obtain ⟨norm, positive, -⟩ := solution
  by_cases one : s.1 % 6 = 1
  · obtain ⟨l, root⟩ : ∃ l, s.1 = 3 * l + 1 := ⟨(s.1 - 1) / 3, by omega⟩
    obtain ⟨order, divides, trace⟩ := mnt_identities (root ▸ norm)
    have step (L : List CmInfo) : mntStep2 L D s.1 = appendCurve 6 L D (l * l + 1) (l * l + 1 + l) := by
      have exact_root : (s.1 - 1) / 3 = l := by omega
      simp only [mntStep2, if_pos one, exact_root]
    obtain ⟨appends, -, all⟩ := outOf_appendCurve step order
    refine ⟨appends, fun cm member => ?_⟩
    obtain ⟨q, n, product, degree⟩ := all cm member
    exact ⟨degree, .of_order ⟨q, n, product⟩ divides trace⟩
  · by_cases five : s.1 % 6 = 5
    · obtain ⟨l, root⟩ : ∃ l, s.1 = -(3 * l + 1) := ⟨-((s.1 + 1) / 3), by omega⟩
      rw [root, neg_pow_two] at norm
      obtain ⟨order, divides, trace⟩ := mnt_identities norm
      have step (L : List CmInfo) :
          mntStep2 L D s.1 = appendCurve 6 L D (l * l + 1) (l * l + 1 + l) := by
        have exact_root : (s.1 + 1) / 3 = -l := by omega
        simp only [mntStep2, if_neg one, if_pos five, exact_root, neg_mul_neg, sub_neg_eq_add]
      obtain ⟨appends, -, all⟩ := outOf_appendCurve step order
      refine ⟨appends, fun cm member => ?_⟩
      obtain ⟨q, n, product, degree⟩ := all cm member
      exact ⟨degree, .of_order ⟨q, n, product⟩ divides trace⟩
    · have step (L : List CmInfo) : mntStep2 L D s.1 = some (L ++ [], 1) := by
        simp only [mntStep2, if_neg one, if_neg five, List.append_nil]
      obtain ⟨appends, same⟩ := Appends.of_run step (Nat.zero_le 1)
      rw [same]
      exact ⟨appends, nofun⟩

/-- The search for curves of embedding degree 6 ends; every curve that it appends is sound,
and it returns their number. -/
theorem findMnt6Curve_sound {D : UInt32} (bits : 3 * D.toNat < 2 ^ 32)
    (nonsquare : ¬IsSquare (3 * D.toNat)) (bitlimit : UInt32) (L : List CmInfo) :
    ∃ k, ∀ fuel, k < fuel → ∃ found count, findMnt6Curve fuel L D bitlimit = some (L ++ found, count) ∧
      count = found.length ∧ ∀ cm ∈ found, cm.k = 6 ∧ cm.Sound D.toNat fun q => q ^ 2 - q + 1 := by
  have triple : (((D * 3).toNat : ℕ) : ℤ) = 3 * D.toNat := by
    rw [UInt32.toNat_mul, Nat.mod_eq_of_lt (by simpa [mul_comm] using bits)]
    exact Nat.cast_mul _ _ |>.trans (mul_comm _ _)
  have nonsquare' : ¬IsSquare (3 * D.toNat : ℤ) := by
    rwa [← Nat.cast_ofNat, ← Nat.cast_mul, Int.isSquare_natCast_iff]
  have positive : (0 : ℤ) < 3 * D.toNat := by
    refine lt_of_le_of_ne (by positivity) fun zero => nonsquare' ?_
    rw [← zero]
    exact IsSquare.zero
  obtain ⟨k, ps, -, -, run⟩ := findCurve_visits positive nonsquare' (bitlimit + 10).toNat
    (fun s solution => (mntStep2_sound D solution).1) L
  refine ⟨k, fun fuel more => ?_⟩
  obtain ⟨visited, -, solutions, found⟩ := run fuel more
  rw [← triple] at found
  refine ⟨_, _, found, rfl, ?_⟩
  intro cm member
  obtain ⟨s, inside, member⟩ := List.mem_flatMap.mp member
  exact (mntStep2_sound D (solutions s inside)).2 cm member

private theorem nonsquare_eleven : ¬IsSquare (3 * (11 : UInt32).toNat) := by
  rintro ⟨n, square⟩
  have value : 33 = n * n := square
  have bound : n < 6 := by nlinarith
  have none : ∀ n < 6, 33 ≠ n * n := by decide
  exact none n bound value

theorem findMnt6Curve_sound_eleven : ∃ k, ∀ fuel, k < fuel → ∃ found count,
    findMnt6Curve fuel [] 11 60 = some ([] ++ found, count) ∧ count = found.length ∧
      ∀ cm ∈ found, cm.k = 6 ∧ cm.Sound (11 : UInt32).toNat fun q => q ^ 2 - q + 1 :=
  findMnt6Curve_sound (by decide) nonsquare_eleven 60 []

end Search

end Pbc.Ecc
