import Pbc.Ecc.DParam

/-!
# The coefficient table of type D preprocessing

Preprocessing writes one triple for every tangent and one for every chord; the
preprocessed pairing reads them back while it steps through the same bits. The
two loops and the direct one run in lock step, so the values agree whenever the
table fits in its block. The block has room for two triples at each bit below the
leading one, which is one too few exactly when every bit is set.
-/

open Pbc.Arith Pbc.Gmp Pbc.Number

namespace Pbc.Ecc

/-- The triples of the bits from `m` down. -/
def tripleCount (q : ℕ) : ℕ → ℕ
  | 0 => 1
  | m + 1 => 1 + (mpzTstbit q (m + 1)).toNat + tripleCount q m

/-- One triple for every bit and one more for every set bit but the last. -/
theorem tripleCount_add (q m : ℕ) : tripleCount q m + ones q 1 = m + 1 + ones q (m + 1) := by
  induction m with
  | zero => rfl
  | succ m ih =>
    have next : ones q (m + 1 + 1) = ones q (m + 1) + (mpzTstbit q (m + 1)).toNat :=
      ones_succ q (m + 1)
    rw [tripleCount, next]
    omega

/-- The count of a whole run is the one that `d_pairing_pp_clear` computes. -/
theorem tripleCount_eq_clear {q : ℕ} (odd : Odd q) (three : 3 ≤ q) :
    tripleCount q (mpzSizeinbase2 q - 2) = dPairingPpClear q := by
  have positive : q ≠ 0 := by omega
  have long : 0 < q.log2 := log2_pos_of_two_le (by omega)
  have last : ones q 1 = 1 := by
    rw [ones_succ, ones_zero, Nat.testBit_zero, Nat.odd_iff.mp odd]
    rfl
  have count := tripleCount_add q (mpzSizeinbase2 q - 2)
  rw [dPairingPpClear, mpzPopcount_eq positive]
  rw [mpzSizeinbase2] at count ⊢
  rw [show q.log2 + 1 - 2 + 1 = q.log2 by omega] at count
  omega

/-- The block is too small exactly when every bit is set. -/
theorem clear_le_allocated_iff {q : ℕ} (three : 3 ≤ q) :
    dPairingPpClear q ≤ 2 * (mpzSizeinbase2 q - 2) ↔ ¬∃ k, q + 1 = 2 ^ k := by
  have positive : q ≠ 0 := by omega
  have long : 0 < q.log2 := log2_pos_of_two_le (by omega)
  have bounded := ones_le q (q.log2 + 1)
  have full := ones_log2_eq_iff positive
  rw [← full, dPairingPpClear, mpzPopcount, mpzSizeinbase2]
  omega

variable {F : Type*} [Field F] [DecidableEq F] [FpMethods F] {n : ℕ} {poly : Fin n → F} {nqr : F}

omit [DecidableEq F] in
/-- The two routines for a tangent agree. -/
theorem ppDoTangent_eq (cca : F) (Z : PointS F) : ppDoTangent cca Z = doTangent cca Z := by
  have triple : FieldMethods.square Z.x + FieldMethods.double (FieldMethods.square Z.x) =
      3 * FieldMethods.square Z.x := by
    rw [FieldMethods.double_eq]
    ring
  simp only [ppDoTangent, doTangent, triple]

/-- From one state the three loops run in lock step: the triples written from
here on are the ones read from here on, and the values agree. -/
theorem lockStep (cca : F) (q : ℕ) (P : PointS F) (Qx Qy : Polymod poly) (m : ℕ) (Z : PointS F)
    (pp : List (PpCoeff F)) (v : DGt poly nqr) :
    ∃ rest value, dPairingPpInitLoop cca q P m Z pp = .ok (pp ++ rest) ∧
      rest.length = tripleCount q m ∧
      ccMillerNoDenomAffineLoop cca q P Qx Qy m Z v = .ok value ∧
      ∀ (coeff : ℕ → Option (PpCoeff F)) (start : ℕ),
        (∀ i, i < rest.length → coeff (start + i) = rest[i]?) →
          dPairingPpApplyLoop coeff q Qx Qy m start v = some (value, start + tripleCount q m) := by
  induction m generalizing Z pp v with
  | zero =>
    refine ⟨[ppDoTangent cca Z], _, rfl, rfl, rfl, fun coeff start stored => ?_⟩
    have first := stored 0 Nat.zero_lt_one
    rw [add_zero] at first
    rw [dPairingPpApplyLoop, first, ppDoTangent_eq]
    rfl
  | succ m ih =>
    obtain ⟨doubled, double⟩ := curveDouble_returns cca Z Z
    rw [dPairingPpInitLoop, ccMillerNoDenomAffineLoop, double]
    cases bit : mpzTstbit q (m + 1) with
    | false =>
      obtain ⟨rest, value, written, size, direct, replay⟩ := ih doubled (pp ++ [ppDoTangent cca Z])
        (fqSquare (fqMul v (dMillerEvalfn nqr (doTangent cca Z) Qx Qy)))
      refine ⟨ppDoTangent cca Z :: rest, value, ?_, ?_, direct, fun coeff start stored => ?_⟩
      · exact written.trans (by rw [List.append_assoc]; rfl)
      · rw [List.length_cons, size, tripleCount, bit, Bool.toNat_false]
        omega
      · have first := stored 0 (by simp)
        rw [add_zero] at first
        have later := replay coeff (start + 1) fun i inside => by
          rw [add_assoc, add_comm 1]
          exact stored (i + 1) (by simpa using inside)
        rw [tripleCount, bit, Bool.toNat_false, dPairingPpApplyLoop, first, ppDoTangent_eq, bit,
          add_zero, ← add_assoc]
        exact later
    | true =>
      obtain ⟨added, add⟩ := curveMul_returns cca doubled doubled P
      obtain ⟨rest, value, written, size, direct, replay⟩ := ih added
        (pp ++ [ppDoTangent cca Z] ++ [doLine P doubled])
        (fqSquare (fqMul (fqMul v (dMillerEvalfn nqr (doTangent cca Z) Qx Qy))
          (dMillerEvalfn nqr (doLine P doubled) Qx Qy)))
      refine ⟨ppDoTangent cca Z :: doLine P doubled :: rest, value, ?_, ?_, ?_,
        fun coeff start stored => ?_⟩
      · simp only [bind, Except.bind, add]
        exact written.trans (by rw [List.append_assoc, List.append_assoc]; rfl)
      · rw [List.length_cons, List.length_cons, size, tripleCount, bit, Bool.toNat_true]
        omega
      · simp only [bind, Except.bind, add]
        exact direct
      · have first := stored 0 (by simp)
        have second := stored 1 (by simp)
        rw [add_zero] at first
        have later := replay coeff (start + 2) fun i inside => by
          rw [add_assoc, add_comm 2]
          exact stored (i + 2) (by simpa using inside)
        rw [tripleCount, bit, Bool.toNat_true, dPairingPpApplyLoop, first, ppDoTangent_eq, bit,
          ← add_assoc]
        simp only [bind, Option.bind, List.getElem?_cons_zero, if_true, second,
          List.getElem?_cons_succ]
        exact later

/-- A whole run: the triples written, the count they have, and the value that the
direct loop and every faithful replay compute. -/
theorem ppRun (p : MntPairingData poly nqr) (P : PointS F) (Q : PointS (Polymod poly)) :
    ∃ triples value,
      dPairingPpInit p.a p.r P = .ok ⟨2 * (mpzSizeinbase2 p.r - 2), triples⟩ ∧
      triples.length = tripleCount p.r (mpzSizeinbase2 p.r - 2) ∧
      ccMillerNoDenomAffine nqr p.a p.r P (Q.x * p.nqrinv) (Q.y * p.nqrinv2) = .ok value ∧
      ∀ coeff : ℕ → Option (PpCoeff F), (∀ i, i < triples.length → coeff i = triples[i]?) →
        dPairingPpApply p coeff Q = some (value, triples.length) := by
  obtain ⟨triples, value, written, size, direct, replay⟩ :=
    lockStep p.a p.r P (Q.x * p.nqrinv) (Q.y * p.nqrinv2) (mpzSizeinbase2 p.r - 2)
      (curveSet curveInit P) [] (1 : DGt poly nqr)
  refine ⟨triples, value, ?_, size, direct, fun coeff stored => ?_⟩
  · rw [dPairingPpInit, written]
    rfl
  · have replayed := replay coeff 0 fun i inside => by
      rw [zero_add]
      exact stored i inside
    rw [dPairingPpApply, replayed, zero_add, size]

/-- The number of triples read depends on the bits alone. -/
theorem dPairingPpApplyLoop_count (triples : ℕ → PpCoeff F) (q : ℕ) (Qx Qy : Polymod poly) (m : ℕ)
    (start : ℕ) (out : DGt poly nqr) :
    (dPairingPpApplyLoop (fun i => some (triples i)) q Qx Qy m start out).map Prod.snd =
      some (start + tripleCount q m) := by
  induction m generalizing start out with
  | zero => rfl
  | succ m ih =>
    simp only [dPairingPpApplyLoop, tripleCount]
    cases bit : mpzTstbit q (m + 1) with
    | false => exact (ih (start + 1) _).trans (by rw [Bool.toNat_false, add_zero, ← add_assoc])
    | true => exact (ih (start + 2) _).trans (by rw [Bool.toNat_true, ← add_assoc])

/-- The numbers of triples stored, read and cleared agree and fit in the block
exactly when `r + 1` is not a power of two. -/
theorem triples_accounting_iff (p : MntPairingData poly nqr) (odd : Odd p.r) (three : 3 ≤ p.r)
    (P : PointS F) (Q : PointS (Polymod poly)) :
    (∃ table, dPairingPpInit p.a p.r P = .ok table ∧
        table.allocated = 2 * (mpzSizeinbase2 p.r - 2) ∧
        (∀ triples : ℕ → PpCoeff F, (dPairingPpApply p (fun i => some (triples i)) Q).map Prod.snd =
          some table.triples.length) ∧
        dPairingPpClear p.r = table.triples.length ∧ table.triples.length ≤ table.allocated) ↔
      ¬∃ k, p.r + 1 = 2 ^ k := by
  obtain ⟨triples, value, written, size, -, -⟩ := ppRun p P Q
  have cleared := tripleCount_eq_clear odd three
  rw [← clear_le_allocated_iff three]
  constructor
  · rintro ⟨table, run, block, -, stored, room⟩
    rw [stored, ← block]
    exact room
  · intro room
    refine ⟨_, written, rfl, fun entries => ?_, cleared.symm.trans size.symm, ?_⟩
    · exact (dPairingPpApplyLoop_count entries p.r _ _ _ 0 _).trans (by rw [zero_add, ← size])
    · rw [size, cleared]
      exact room

private theorem six_ne_two_pow : ¬∃ k, 5 + 1 = 2 ^ k :=
  (ones_log2_eq_iff (by decide)).not.mp (by decide)

/-- The small parameters with an order that has a zero bit. -/
def smallD5 : MntPairingData (![1, 1, 0] : Fin 3 → ZMod 5) 2 := { smallD with r := 5 }

/-- At `r = 5` two triples are stored, read and cleared, and two have room. -/
theorem triples_accounting_five :
    Odd smallD5.r ∧ 3 ≤ smallD5.r ∧
      ∃ table, dPairingPpInit smallD5.a smallD5.r ⟨false, 0, 1⟩ = .ok table ∧
        table.allocated = 2 * (mpzSizeinbase2 smallD5.r - 2) ∧
        (∀ triples : ℕ → PpCoeff (ZMod 5),
          (dPairingPpApply smallD5 (fun i => some (triples i))
            ⟨false, ⟨![3, 0, 0]⟩, ⟨![2, 0, 0]⟩⟩).map Prod.snd = some table.triples.length) ∧
        dPairingPpClear smallD5.r = table.triples.length ∧ table.triples.length ≤ table.allocated :=
  ⟨by decide, by decide, (triples_accounting_iff smallD5 (by decide) (by decide)
    ⟨false, 0, 1⟩ ⟨false, ⟨![3, 0, 0]⟩, ⟨![2, 0, 0]⟩⟩).mpr six_ne_two_pow⟩

/-- At `r = 7` three triples are stored and two have room. -/
theorem triples_overflow_seven :
    ¬∃ table, dPairingPpInit smallD.a smallD.r ⟨false, 0, 1⟩ = .ok table ∧
        table.allocated = 2 * (mpzSizeinbase2 smallD.r - 2) ∧
        (∀ triples : ℕ → PpCoeff (ZMod 5), (dPairingPpApply smallD (fun i => some (triples i))
          ⟨false, ⟨![3, 0, 0]⟩, ⟨![2, 0, 0]⟩⟩).map Prod.snd = some table.triples.length) ∧
        dPairingPpClear smallD.r = table.triples.length ∧
        table.triples.length ≤ table.allocated := by
  rintro ⟨table, -, block, -, stored, room⟩
  rw [← stored, block] at room
  exact absurd room (by decide)

/-- The preprocessed pairing stays inside its table and hands the value of the
direct loop to the final powering exactly when `r + 1` is not a power of two. The
triples that were written give that value in any case. -/
theorem ppApply_eq_affine_iff (p : MntPairingData poly nqr) (odd : Odd p.r) (three : 3 ≤ p.r)
    (P : PointS F) (Q : PointS (Polymod poly)) :
    ((∃ table value, dPairingPpInit p.a p.r P = .ok table ∧ table.InBounds ∧
        (dPairingPpApply p table.read Q).map Prod.fst = some value ∧
        ccMillerNoDenomAffine nqr p.a p.r P (Q.x * p.nqrinv) (Q.y * p.nqrinv2) = .ok value) ↔
      ¬∃ k, p.r + 1 = 2 ^ k) ∧
    ∃ table value, dPairingPpInit p.a p.r P = .ok table ∧
      (dPairingPpApply p (fun i => table.triples[i]?) Q).map Prod.fst = some value ∧
      ccMillerNoDenomAffine nqr p.a p.r P (Q.x * p.nqrinv) (Q.y * p.nqrinv2) = .ok value := by
  obtain ⟨triples, value, written, size, direct, replay⟩ := ppRun p P Q
  rw [tripleCount_eq_clear odd three] at size
  refine ⟨⟨?_, fun free => ?_⟩, ⟨_, triples⟩, value, written, ?_, direct⟩
  · rintro ⟨table, other, run, inside, -⟩
    obtain rfl := Except.ok.inj (run.symm.trans written)
    rw [← clear_le_allocated_iff three, ← size]
    exact inside
  · have inside : PpTable.InBounds ⟨2 * (mpzSizeinbase2 p.r - 2), triples⟩ :=
      size.trans_le ((clear_le_allocated_iff three).mpr free)
    refine ⟨_, value, written, inside, ?_, direct⟩
    rw [replay _ fun i bounded => inside.read_eq bounded]
    rfl
  · rw [replay _ fun i _ => rfl]
    rfl

/-- At `r = 5` the preprocessed pairing stays inside its table. -/
theorem ppApply_five :
    Odd smallD5.r ∧ 3 ≤ smallD5.r ∧
      ∃ table value, dPairingPpInit smallD5.a smallD5.r ⟨false, 0, 1⟩ = .ok table ∧ table.InBounds ∧
        (dPairingPpApply smallD5 table.read
          ⟨false, ⟨![3, 0, 0]⟩, ⟨![2, 0, 0]⟩⟩).map Prod.fst = some value ∧
        ccMillerNoDenomAffine 2 smallD5.a smallD5.r ⟨false, 0, 1⟩
          ((⟨![3, 0, 0]⟩ : Polymod (![1, 1, 0] : Fin 3 → ZMod 5)) * smallD5.nqrinv)
          (⟨![2, 0, 0]⟩ * smallD5.nqrinv2) = .ok value :=
  ⟨by decide, by decide, (ppApply_eq_affine_iff smallD5 (by decide) (by decide)
    ⟨false, 0, 1⟩ ⟨false, ⟨![3, 0, 0]⟩, ⟨![2, 0, 0]⟩⟩).1.mpr six_ne_two_pow⟩

/-- At `r = 7` the third triple is written outside the block. -/
theorem ppApply_overflow_seven :
    ¬∃ table value, dPairingPpInit smallD.a smallD.r ⟨false, 0, 1⟩ = .ok table ∧ table.InBounds ∧
      (dPairingPpApply smallD table.read ⟨false, ⟨![3, 0, 0]⟩, ⟨![2, 0, 0]⟩⟩).map Prod.fst =
        some value ∧
      ccMillerNoDenomAffine 2 smallD.a smallD.r ⟨false, 0, 1⟩
        ((⟨![3, 0, 0]⟩ : Polymod (![1, 1, 0] : Fin 3 → ZMod 5)) * smallD.nqrinv)
        (⟨![2, 0, 0]⟩ * smallD.nqrinv2) = .ok value := by
  rintro ⟨table, value, run, inside, -⟩
  obtain ⟨triples, -, written, size, -⟩ :=
    ppRun smallD ⟨false, 0, 1⟩ ⟨false, ⟨![3, 0, 0]⟩, ⟨![2, 0, 0]⟩⟩
  obtain rfl := Except.ok.inj (run.symm.trans written)
  have room : tripleCount smallD.r (mpzSizeinbase2 smallD.r - 2) ≤
      2 * (mpzSizeinbase2 smallD.r - 2) := size ▸ inside
  exact absurd room (by decide)

end Pbc.Ecc
