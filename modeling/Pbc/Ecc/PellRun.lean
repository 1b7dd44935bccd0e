import Pbc.Ecc.Mnt
import Pbc.Misc.Fuel

/-!
# Faults of the Pell solver

`general_pell` with everything that can go wrong in it: a division of the integer library by
zero or with a remainder, and the `int` product in the search for square factors, which
wraps. A run that ends has met none of them.
-/

open Pbc.Gmp Pbc.Misc Pbc.Number

namespace Pbc.Ecc

/-- How a run of `general_pell` fails. -/
inductive PellFault where
  | fuel
  | intDivision
  | tdivZero
  | divexact
  deriving DecidableEq, Repr

section Operations

/-- `mpz_tdiv_q`. -/
def mpzTdivQ (a b : ℤ) : Except PellFault ℤ := if b = 0 then .error .tdivZero else .ok (a.tdiv b)

/-- `mpz_divexact`, which needs a divisor. -/
def mpzDivexact (a b : ℤ) : Except PellFault ℤ :=
  if b ≠ 0 ∧ b ∣ a then .ok (a / b) else .error .divexact

/-- The search for the square factors of `N`, from its absolute value. -/
def squareFactorLoop (size : ℤ) : ℕ → ℤ → Except PellFault (List ℤ)
  | 0, _ => .error .fuel
  | fuel + 1, f =>
      let n := intWrap (f * f)
      if n > size then .ok []
      else if n = 0 then .error .intDivision
      else do
        let listf ← squareFactorLoop size fuel (f + 1)
        return if size.tmod n = 0 then f :: listf else listf

/-- What `general_pell` starts with. -/
def pellInitRun (D : ℤ) : Except PellFault PellState := do
  let a0 := Int.sqrt D
  let P1 := a0
  let Q1 := a0 * a0
  let Q1 := D - Q1
  let a1 := a0 + P1
  let a1 ← mpzTdivQ a1 Q1
  return { P1 := P1, Q1 := Q1, a1 := a1, p0 := a0, q0 := 1, p1 := a0 * a1 + 1, q1 := a1, d := -1 }

/-- More of the expansion, and the next convergent. -/
def pellNextRun (D : ℤ) (s : PellState) : Except PellFault PellState := do
  let P1 := s.a1 * s.Q1 - s.P1
  let Q1 := D - P1 * P1
  let Q1 ← mpzDivexact Q1 s.Q1
  let a1 := Int.sqrt D + P1
  let a1 ← mpzTdivQ a1 Q1
  return { P1 := P1, Q1 := Q1, a1 := a1, p0 := s.p1, q0 := s.q1, p1 := a1 * s.p1 + s.p0,
           q1 := a1 * s.q1 + s.q0, d := -s.d }

/-- The solutions that one turn of the loop appends. -/
def pellFoundRun (N : ℤ) (listf : List ℤ) (s : PellState) : List (ℤ × ℤ) :=
  let sgnN := if N > 0 then 1 else -1
  if s.d = sgnN then
    listf.filterMap fun f =>
      if s.Q1 = (intWrap |N|).tdiv (intWrap (f * f)) then some (s.p0 * f, s.q0 * f) else none
  else []

/-- The loop of `general_pell`. -/
def pellLoopRun (D N : ℤ) (listf : List ℤ) :
    ℕ → PellState → List (ℤ × ℤ) → Except PellFault PellSolution
  | 0, _, _ => .error .fuel
  | fuel + 1, s, found =>
      let found := found ++ pellFoundRun N listf s
      if Int.sqrt D + Int.sqrt D = s.a1 ∧ s.d = 1 then .ok ⟨s.p0, s.q0, found⟩
      else do
        let s ← pellNextRun D s
        pellLoopRun D N listf fuel s found

/-- `general_pell`, with the faults of its run. -/
def generalPellRun (fuel : ℕ) (D : ℤ) (N : Int32) : Except PellFault PellSolution := do
  let listf ← squareFactorLoop (intWrap |N.toInt|) fuel 1
  let s ← pellInitRun D
  pellLoopRun D N.toInt listf fuel s []

end Operations

section Factors

/-- A square factor with a product that does not wrap. -/
structure SquareFactor (size f : ℤ) : Prop where
  positive : 0 < f
  small : f ≤ 46340
  below : f * f ≤ size
  divides : f * f ∣ size

/-- From the first product that wraps on the search meets a division by zero. -/
theorem squareFactorLoop_wraps {size : ℤ} (nonneg : 0 ≤ size) (fuel : ℕ) {f : ℤ}
    (lower : 46341 ≤ f) (upper : f ≤ 65536) (listf : List ℤ) :
    squareFactorLoop size fuel f ≠ .ok listf := by
  induction fuel generalizing f listf with
  | zero => nofun
  | succ fuel ih =>
    intro run
    have wraps := intWrap_nonpos (z := f * f) (by nlinarith) (by nlinarith)
    rw [squareFactorLoop] at run
    simp only [gt_iff_lt, not_lt.mpr (wraps.trans nonneg), if_false] at run
    split at run
    · cases run
    · next nonzero =>
      rcases upper.eq_or_lt with rfl | below
      · exact nonzero rfl
      · obtain ⟨rest, run, -⟩ := bind_eq_ok.mp run
        exact ih (by omega) (by omega) rest run

/-- A search that ends has found square factors only. -/
theorem squareFactorLoop_spec {size : ℤ} (nonneg : 0 ≤ size) (fuel : ℕ) {f : ℤ} (positive : 0 < f)
    (upper : f ≤ 46341) {listf : List ℤ} (run : squareFactorLoop size fuel f = .ok listf) :
    ∀ g ∈ listf, SquareFactor size g := by
  induction fuel generalizing f listf with
  | zero => cases run
  | succ fuel ih =>
    have unfolded := run
    rw [squareFactorLoop] at unfolded
    rcases upper.eq_or_lt with rfl | below
    · exact absurd run (squareFactorLoop_wraps nonneg _ le_rfl (by norm_num) listf)
    · have product : intWrap (f * f) = f * f := intWrap_eq (by positivity) (by nlinarith)
      have nonzero : f * f ≠ 0 := (mul_pos positive positive).ne'
      simp only [product, gt_iff_lt, nonzero, if_false] at unfolded
      split at unfolded
      · cases unfolded
        exact List.forall_mem_nil _
      · next fits =>
        obtain ⟨rest, run', found⟩ := bind_eq_ok.mp unfolded
        have later := ih (by omega) (by omega) run'
        cases found
        split
        · next divides =>
          have divisor : f * f ∣ size := Int.dvd_of_tmod_eq_zero divides
          exact List.forall_mem_cons.mpr ⟨⟨positive, by omega, not_lt.mp fits, divisor⟩, later⟩
        · exact later

/-- The square factors of an `int`; the least one has no absolute value, and none are found. -/
theorem squareFactorLoop_abs (N : Int32) {fuel : ℕ} {listf : List ℤ}
    (run : squareFactorLoop (intWrap |N.toInt|) fuel 1 = .ok listf) :
    ∀ g ∈ listf, SquareFactor |N.toInt| g ∧ intWrap |N.toInt| = |N.toInt| := by
  have lower := N.le_toInt
  have upper := N.toInt_lt
  rcases lt_or_ge |N.toInt| (2 ^ 31) with fits | least
  · have size := intWrap_eq (abs_nonneg N.toInt) fits
    rw [size] at run ⊢
    intro g member
    exact ⟨squareFactorLoop_spec (abs_nonneg _) fuel one_pos (by norm_num) run g member, rfl⟩
  · have wraps : intWrap |N.toInt| = -2 ^ 31 := by
      have most : |N.toInt| = 2 ^ 31 := le_antisymm (abs_le.mpr (by omega)) least
      rw [most]
      decide
    rw [wraps] at run
    cases fuel with
    | zero => cases run
    | succ fuel =>
      cases run
      exact List.forall_mem_nil _

end Factors

section Runs

variable {D : ℤ} {N : Int32} {listf : List ℤ}
  (factors : ∀ g ∈ listf, SquareFactor |N.toInt| g ∧ intWrap |N.toInt| = |N.toInt|)

include factors in
/-- A convergent of the right norm gives a solution. -/
theorem pellFoundRun_solves {s : PellState} (holds : s.Holds D) {x : ℤ × ℤ}
    (member : x ∈ pellFoundRun N.toInt listf s) : IsSolution D N.toInt x := by
  have norm := holds.convergents.norm
  obtain ⟨positive, positive'⟩ := holds.convergents.first
  by_cases sign : s.d = if N.toInt > 0 then 1 else -1
  · rw [pellFoundRun, if_pos sign] at member
    obtain ⟨f, factor, found⟩ := List.mem_filterMap.mp member
    obtain ⟨square, size⟩ := factors f factor
    have scale := square.positive
    have small := square.small
    have product : intWrap (f * f) = f * f := intWrap_eq (by positivity) (by nlinarith)
    rw [size, product, Int.tdiv_eq_ediv_of_nonneg (abs_nonneg _)] at found
    split at found
    · next den =>
      obtain rfl := Option.some.inj found
      have whole : s.Q1 * (f * f) = |N.toInt| := by
        rw [den]
        exact Int.ediv_mul_cancel square.divides
      have signed : s.d * |N.toInt| = N.toInt := by
        rw [sign]
        split
        · next above => rw [one_mul, abs_of_pos above]
        · next below => rw [abs_of_nonpos (not_lt.mp below), neg_one_mul, neg_neg]
      refine ⟨?_, mul_pos positive scale, mul_pos positive' scale⟩
      calc (s.p0 * f) ^ 2 - D * (s.q0 * f) ^ 2 = (s.p0 ^ 2 - D * s.q0 ^ 2) * (f * f) := by ring
        _ = s.d * (s.Q1 * (f * f)) := by rw [norm, mul_assoc]
        _ = N.toInt := by rw [whole, signed]
    · cases found
  · rw [pellFoundRun, if_neg sign] at member
    cases member

/-- The first state is reached without a fault. -/
theorem pellInitRun_ok (floor : SurdFloor D (Int.sqrt D)) : pellInitRun D = .ok (pellInit D) := by
  have nonzero : D - Int.sqrt D * Int.sqrt D ≠ 0 := (pellInit_holds floor).reduced.den_pos.ne'
  rw [pellInitRun, mpzTdivQ, if_neg nonzero]
  rfl

/-- A turn meets no fault: `Q1` divides, and the next one is positive. -/
theorem pellNextRun_ok (floor : SurdFloor D (Int.sqrt D)) {s : PellState} (holds : s.Holds D) :
    pellNextRun D s = .ok (pellNext D s) := by
  have next := (pellNext_holds floor holds).reduced.den_pos.ne'
  have nonzero := holds.reduced.den_pos.ne'
  have product := holds.reduced.step_mul
  have divides : s.Q1 ∣ D - (s.a1 * s.Q1 - s.P1) * (s.a1 * s.Q1 - s.P1) := by
    rw [holds.quotient, ← pow_two]
    exact Dvd.intro_left _ product
  have quotient : mpzTdivQ (Int.sqrt D + (pellNext D s).P1) (pellNext D s).Q1 =
      .ok (pellNext D s).a1 := if_neg next
  rw [pellNextRun, mpzDivexact, if_pos ⟨nonzero, divides⟩]
  change mpzTdivQ (Int.sqrt D + (pellNext D s).P1) (pellNext D s).Q1 >>= _ = _
  rw [quotient]
  rfl

include factors in
/-- The loop only ever runs out of fuel, and what it returns are solutions. -/
theorem pellLoopRun_sound (floor : SurdFloor D (Int.sqrt D)) (fuel : ℕ) {s : PellState}
    (holds : s.Holds D) {found : List (ℤ × ℤ)} (solved : ∀ x ∈ found, IsSolution D N.toInt x) :
    (∀ fault, pellLoopRun D N.toInt listf fuel s found = .error fault → fault = .fuel) ∧
      ∀ ps, pellLoopRun D N.toInt listf fuel s found = .ok ps → ps.Solves D N.toInt := by
  induction fuel generalizing s found with
  | zero =>
    refine ⟨fun fault run => ?_, fun ps run => ?_⟩
    · cases run
      rfl
    · cases run
  | succ fuel ih =>
    have all : ∀ x ∈ found ++ pellFoundRun N.toInt listf s, IsSolution D N.toInt x := by
      intro x member
      rcases List.mem_append.mp member with member | member
      · exact solved x member
      · exact pellFoundRun_solves factors holds member
    rw [pellLoopRun]
    split
    · next stop =>
      refine ⟨fun fault run => ?_, fun ps run => ?_⟩
      · cases run
      · cases run
        exact ⟨⟨pell_minimal holds stop, holds.convergents.first⟩, all⟩
    · rw [pellNextRun_ok floor holds]
      exact ih (pellNext_holds floor holds) all

/-- A search that fails has run out of fuel or into a product that is zero. -/
theorem squareFactorLoop_fault (fuel : ℕ) (fault : PellFault) {size f : ℤ}
    (run : squareFactorLoop size fuel f = .error fault) : fault = .fuel ∨ fault = .intDivision := by
  induction fuel generalizing f with
  | zero =>
    cases run
    exact .inl rfl
  | succ fuel ih =>
    rw [squareFactorLoop] at run
    split at run
    · cases run
    · split at run
      · cases run
        exact .inr rfl
      · cases rest : squareFactorLoop size fuel (f + 1) with
        | error fault' =>
          rw [rest] at run
          cases run
          exact ih rest
        | ok listf =>
          rw [rest] at run
          cases run

/-- No run of `general_pell` divides by `Q1 = 0` or leaves a remainder in a division that is
taken to be exact, and whenever one ends, it has found solutions of both equations. -/
theorem generalPellRun_sound (two : 2 ≤ D) (nonsquare : ¬IsSquare D) (N : Int32) (fuel : ℕ) :
    generalPellRun fuel D N ≠ .error .tdivZero ∧ generalPellRun fuel D N ≠ .error .divexact ∧
      ∀ ps, generalPellRun fuel D N = .ok ps → ps.minx ^ 2 - D * ps.miny ^ 2 = 1 ∧ 1 ≤ ps.miny ∧
        ∀ s ∈ ps.solutions, s.1 ^ 2 - D * s.2 ^ 2 = N.toInt := by
  have floor := surdFloor_sqrt (by omega) nonsquare
  cases run : squareFactorLoop (intWrap |N.toInt|) fuel 1 with
  | error fault =>
    have outcome : generalPellRun fuel D N = .error fault := by
      rw [generalPellRun, run]
      rfl
    rw [outcome]
    rcases squareFactorLoop_fault fuel fault run with rfl | rfl
    · exact ⟨nofun, nofun, nofun⟩
    · exact ⟨nofun, nofun, nofun⟩
  | ok listf =>
    have outcome : generalPellRun fuel D N = pellLoopRun D N.toInt listf fuel (pellInit D) [] := by
      rw [generalPellRun, run, pellInitRun_ok floor]
      rfl
    obtain ⟨faults, solves⟩ := pellLoopRun_sound (squareFactorLoop_abs N run) floor fuel
      (pellInit_holds floor) (List.forall_mem_nil _)
    rw [outcome]
    refine ⟨fun fault => ?_, fun fault => ?_, fun ps result => ?_⟩
    · cases faults _ fault
    · cases faults _ fault
    · obtain ⟨⟨minimal, -, positive⟩, solution⟩ := solves ps result
      exact ⟨minimal, positive, fun s member => (solution s member).norm⟩

/-- The search for square factors ends where no product wraps. -/
theorem squareFactorLoop_ends {size : ℤ} (small : size < 46340 * 46340) (turns : ℕ) {f : ℤ}
    (positive : 0 < f) (last : f + turns = 46340) :
    ∃ listf, Ends (fun fuel => squareFactorLoop size fuel f) listf := by
  induction turns generalizing f with
  | zero =>
    obtain rfl : f = 46340 := by omega
    refine ⟨[], .succ (.of_eq fun fuel => ?_)⟩
    rw [squareFactorLoop, intWrap_eq (by norm_num) (by norm_num)]
    exact if_pos small
  | succ turns ih =>
    have product : intWrap (f * f) = f * f := intWrap_eq (by positivity) (by nlinarith)
    have nonzero : f * f ≠ 0 := (mul_pos positive positive).ne'
    by_cases beyond : f * f > size
    · refine ⟨[], .succ (.of_eq fun fuel => ?_)⟩
      simp only [squareFactorLoop, product, beyond, if_true]
    · obtain ⟨listf, ends⟩ := ih (f := f + 1) (by omega) (by omega)
      refine ⟨if size.tmod (f * f) = 0 then f :: listf else listf, .succ ?_⟩
      simp only [squareFactorLoop, product, beyond, nonzero, if_false]
      exact ends.bind (.of_eq fun fuel => rfl)

/-- The loop ends, at the latest where the expansion is back with the sign that it waits for. -/
theorem pellLoopRun_ends (floor : SurdFloor D (Int.sqrt D)) {k : ℕ} {s : PellState}
    (holds : s.Holds D) (returns : (surdStep D (Int.sqrt D))^[k] (s.P1, s.Q1) = (Int.sqrt D, 1))
    (sign : s.d * (-1) ^ k = 1) (found : List (ℤ × ℤ)) :
    ∃ ps, Ends (fun fuel => pellLoopRun D N.toInt listf fuel s found) ps := by
  have stops {s : PellState} (stop : Int.sqrt D + Int.sqrt D = s.a1 ∧ s.d = 1)
      (found : List (ℤ × ℤ)) :
      ∃ ps, Ends (fun fuel => pellLoopRun D N.toInt listf fuel s found) ps := by
    refine ⟨⟨s.p0, s.q0, found ++ pellFoundRun N.toInt listf s⟩, .succ (.of_eq fun fuel => ?_)⟩
    rw [pellLoopRun, if_pos stop]
  induction k generalizing s found with
  | zero =>
    rw [pow_zero, mul_one] at sign
    exact stops ⟨holds.quotient_of_returns returns, sign⟩ found
  | succ k ih =>
    by_cases stop : Int.sqrt D + Int.sqrt D = s.a1 ∧ s.d = 1
    · exact stops stop found
    · rw [Function.iterate_succ_apply, ← pellNext_state holds] at returns
      obtain ⟨ps, ends⟩ := ih (pellNext_holds floor holds) returns (pellNext_sign sign)
        (found ++ pellFoundRun N.toInt listf s)
      refine ⟨ps, .succ ?_⟩
      simp only [pellLoopRun, if_neg stop, pellNextRun_ok floor holds]
      exact ends

/-- A run ends where no product of the search wraps. -/
theorem generalPellRun_ends (positive : 0 < D) (nonsquare : ¬IsSquare D)
    (small : |N.toInt| < 46340 * 46340) :
    ∃ ps, Ends (fun fuel => generalPellRun fuel D N) ps := by
  have floor := surdFloor_sqrt positive nonsquare
  obtain ⟨k, returns, sign⟩ := pellInit_returns floor
  have size := intWrap_eq (abs_nonneg N.toInt) (by omega)
  obtain ⟨listf, factors⟩ := squareFactorLoop_ends small 46339 one_pos (by norm_num)
  rw [← size] at factors
  obtain ⟨ps, ends⟩ : ∃ ps, Ends (fun fuel => pellLoopRun D N.toInt listf fuel (pellInit D) []) ps :=
    pellLoopRun_ends floor (pellInit_holds floor) returns sign []
  refine ⟨ps, factors.bind ?_⟩
  simp only [pellInitRun_ok floor]
  exact ends

end Runs

section Small

private theorem sqrt_three : Int.sqrt 3 = 1 := by
  have root : Nat.sqrt 3 = 1 := (Nat.eq_sqrt.mpr (by decide)).symm
  exact congrArg Int.ofNat root

private theorem pellInitRun_three : pellInitRun 3 = .ok ⟨1, 2, 1, 1, 1, 2, 1, -1⟩ := by
  simp only [pellInitRun, sqrt_three]
  rfl

private theorem pellNextRun_three :
    pellNextRun 3 ⟨1, 2, 1, 1, 1, 2, 1, -1⟩ = .ok ⟨1, 1, 2, 2, 1, 5, 3, 1⟩ := by
  simp only [pellNextRun, sqrt_three]
  rfl

/-- The expansion for `D = 3` has two turns and finds one solution for `N = 4`. -/
private theorem generalPellRun_three : generalPellRun 4 3 4 = .ok ⟨2, 1, [(4, 2)]⟩ := by
  have factors : squareFactorLoop (intWrap |(4 : Int32).toInt|) 4 1 = .ok [1, 2] := by decide
  rw [generalPellRun, factors, pellInitRun_three]
  change pellLoopRun 3 4 [1, 2] 4 _ [] = _
  rw [pellLoopRun, sqrt_three, pellNextRun_three]
  change pellLoopRun 3 4 [1, 2] 3 _ [] = _
  rw [pellLoopRun, sqrt_three]
  rfl

theorem generalPellRun_sound_three :
    ∃ ps, generalPellRun 4 3 4 = .ok ps ∧ ps.minx ^ 2 - 3 * ps.miny ^ 2 = 1 ∧ 1 ≤ ps.miny ∧
      ∀ s ∈ ps.solutions, s.1 ^ 2 - 3 * s.2 ^ 2 = 4 := by
  have nonsquare : ¬IsSquare (3 : ℤ) := by
    rintro ⟨n, square⟩
    have range : n = -1 ∨ n = 0 ∨ n = 1 := by
      have above : n < 2 := by nlinarith
      have below : -2 < n := by nlinarith
      omega
    rcases range with rfl | rfl | rfl
    all_goals exact absurd square (by decide)
  exact ⟨_, generalPellRun_three,
    (generalPellRun_sound (by decide) nonsquare 4 4).2.2 _ generalPellRun_three⟩

end Small

end Pbc.Ecc
