import Pbc.Arith.PowCalls

/-!
# Preprocessed exponentiation

The table of a base has a row for every five bits of the order of its field, and one more. An
exponent is walked in words of five bits; a nonzero word is looked up in the row of its place. The
result is the power as long as no nonzero word lies above the last row.
-/

open Pbc.Gmp Pbc.Number Pbc.Algebra

namespace Pbc.Arith

section Operations

variable {ι : Type*}

/-- One row of `element_build_base_table`. -/
def baseTableRowCalls (k i : ℕ) : List (Call (PowCell ι)) :=
  .set1 (.table i 0) ::
    ((List.range (2 ^ k - 1)).map (fun j => .mul (.table i (j + 1)) .multiplier (.table i j)) ++
      [.mul .multiplier .multiplier (.table i (2 ^ k - 1))])

/-- `element_build_base_table`. -/
def elementBuildBaseTable (a : ι) (bits k : ℕ) : List (Call (PowCell ι)) :=
  .set .multiplier (.object a) :: (List.range (bits / k + 1)).flatMap (baseTableRowCalls k)

/-- The word of an exponent that is looked up in a row. -/
def baseTableWord (n k row : ℕ) : ℕ :=
  (List.range k).foldl (fun word s => word ||| (mpzTstbit n (k * row + s)).toNat <<< s) 0

/-- One turn of `element_pow_base_table`. -/
def baseTableTurn (n k row : ℕ) : List (Call (PowCell ι)) :=
  let word := baseTableWord n k row
  if word > 0 then [.mul .result .result (.table row word)] else []

/-- `element_pow_base_table`. -/
def elementPowBaseTable (x : ι) (n k : ℕ) : List (Call (PowCell ι)) :=
  if n = 0 then [.set1 (.object x)]
  else
    .set1 .result ::
      ((List.range (mpzSizeinbase2 n / k + 1)).flatMap (baseTableTurn n k) ++
        [.set (.object x) .result])

/-- `default_element_pp_init`, for an element of a field of an order. -/
def defaultElementPpInit (a : ι) (order : ℕ) : List (Call (PowCell ι)) :=
  elementBuildBaseTable a (mpzSizeinbase2 order) 5

/-- `default_element_pp_pow`. -/
def defaultElementPpPow (x : ι) (n : ℕ) : List (Call (PowCell ι)) := elementPowBaseTable x n 5

end Operations

section Words

/-- The bits of a word, up to one of them. -/
private theorem word_bits (n k row m : ℕ) : (List.range m).foldl
    (fun word s => word ||| (mpzTstbit n (k * row + s)).toNat <<< s) 0 =
      n / 2 ^ (k * row) % 2 ^ m := by
  induction m with
  | zero => simp [Nat.mod_one]
  | succ m ih =>
    have small : n / 2 ^ (k * row) % 2 ^ m < 2 ^ m := Nat.mod_lt _ (by positivity)
    have bit : (n.testBit (k * row + m)).toNat = n / 2 ^ (k * row) / 2 ^ m % 2 := by
      rw [Nat.toNat_testBit, Nat.div_div_eq_div_mul, ← pow_add]
    rw [List.range_succ, List.foldl_append, ih, List.foldl_cons, List.foldl_nil, mpzTstbit,
      Nat.or_comm, ← Nat.shiftLeft_add_eq_or_of_lt small, bit, Nat.shiftLeft_eq, Nat.mod_pow_succ]
    ring

/-- A word is the part of the exponent at its place. -/
theorem baseTableWord_eq (n k row : ℕ) : baseTableWord n k row = n / 2 ^ (k * row) % 2 ^ k :=
  word_bits n k row k

/-- The words up to a place make up the exponent there. -/
theorem mod_succ_row (n k row : ℕ) :
    n % 2 ^ (k * (row + 1)) = n % 2 ^ (k * row) + baseTableWord n k row * 2 ^ (k * row) := by
  rw [baseTableWord_eq, mul_add_one, pow_add, Nat.mod_mul, mul_comm (2 ^ (k * row))]

end Words

section Values

variable {ι M : Type*} [DecidableEq ι] [Monoid M] {squared : M → M} {s : PowCell ι → Option M} {g : M}

/-- A row holds the powers of the multiplier, which is raised to the next place. -/
theorem baseTableRowCalls_run (squared : M → M) (k i : ℕ) (base : s .multiplier = some g) :
    ∃ t, runCalls squared (baseTableRowCalls k i) s = some t ∧
      (∀ j, j < 2 ^ k → t (.table i j) = some (g ^ j)) ∧ t .multiplier = some (g ^ 2 ^ k) ∧
      ∀ c, (∀ j, c ≠ .table i j) → c ≠ .multiplier → t c = s c := by
  have injective : Function.Injective (PowCell.table i : ℕ → PowCell ι) :=
    fun _ _ same => (PowCell.table.inj same).2
  obtain ⟨t, run, entries, frame⟩ := runCalls_powers squared injective
    (fun j same => by cases same) base (fun _ => Or.inr rfl) (2 ^ k - 1)
  have positive : 0 < 2 ^ k := by positivity
  have base' : t .multiplier = some g := (frame _ fun j same => by cases same).trans base
  have raised : g * g ^ (2 ^ k - 1) = g ^ 2 ^ k := by
    rw [← pow_succ', Nat.sub_add_cancel positive]
  rw [baseTableRowCalls, ← List.cons_append, runCalls_append run,
    runCalls_mul base' (entries _ le_rfl), raised, runCalls_nil]
  refine ⟨_, rfl, ?_, Function.update_self _ _ _, ?_⟩
  · intro j inside
    rw [Function.update_of_ne fun same => by cases same]
    exact entries j (by omega)
  · intro c other apart
    rw [Function.update_of_ne apart]
    exact frame c other

/-- The rows built, for all places below one. -/
private theorem rows_run (squared : M → M) (a : ι) (k : ℕ) (base : s (.object a) = some g) (m : ℕ) :
    ∃ t, runCalls squared (.set .multiplier (.object a) ::
        (List.range m).flatMap (baseTableRowCalls k)) s = some t ∧
      t .multiplier = some (g ^ 2 ^ (k * m)) ∧
      (∀ i < m, ∀ j, j < 2 ^ k → t (.table i j) = some (g ^ (2 ^ (k * i) * j))) ∧
      (∀ i, m ≤ i → ∀ j, t (.table i j) = s (.table i j)) ∧ ∀ i, t (.object i) = s (.object i) := by
  induction m with
  | zero =>
    have start : g ^ 2 ^ (k * 0) = g := by rw [mul_zero, pow_zero, pow_one]
    rw [List.range_zero, List.flatMap_nil, runCalls_set base, runCalls_nil, start]
    refine ⟨_, rfl, Function.update_self _ _ _, fun i inside => absurd inside (Nat.not_lt_zero i),
      fun i _ j => Function.update_of_ne (fun same => by cases same) _ _,
      fun i => Function.update_of_ne (fun same => by cases same) _ _⟩
  | succ m ih =>
    obtain ⟨t, run, multiplier, entries, above, frame⟩ := ih
    obtain ⟨t', run', entries', multiplier', frame'⟩ :=
      baseTableRowCalls_run squared k m multiplier
    have other (c : PowCell ι) (row : ∀ j, c ≠ .table m j) (apart : c ≠ .multiplier) :
        t' c = t c := frame' c row apart
    rw [List.range_succ, List.flatMap_append, List.flatMap_singleton, ← List.cons_append,
      runCalls_append run]
    refine ⟨t', run', ?_, ?_, ?_, ?_⟩
    · rw [multiplier', ← pow_mul, ← pow_add, mul_add_one]
    · intro i inside j small
      rcases Nat.lt_succ_iff_lt_or_eq.mp inside with below | rfl
      · rw [other _ (fun j same => by cases same; omega) fun same => by cases same]
        exact entries i below j small
      · rw [entries' j small, ← pow_mul]
    · intro i outside j
      rw [other _ (fun j same => by cases same; omega) fun same => by cases same]
      exact above i (by omega) j
    · intro i
      rw [other _ (fun j same => by cases same) fun same => by cases same]
      exact frame i

/-- The invariant of a table: entry `j` of row `i` is the power by `j` at its place, and above the
last row nothing is written. -/
structure BaseTable (t : PowCell ι → Option M) (g : M) (k rows : ℕ) : Prop where
  entries : ∀ i < rows, ∀ j, j < 2 ^ k → t (.table i j) = some (g ^ (2 ^ (k * i) * j))
  above : ∀ i, rows ≤ i → ∀ j, t (.table i j) = none

theorem elementBuildBaseTable_run (squared : M → M) (a : ι) (bits k : ℕ) (base : s (.object a) = some g)
    (fresh : ∀ i j, s (.table i j) = none) :
    ∃ t, runCalls squared (elementBuildBaseTable a bits k) s = some t ∧
      BaseTable t g k (bits / k + 1) ∧ ∀ i, t (.object i) = s (.object i) := by
  obtain ⟨t, run, -, entries, above, frame⟩ := rows_run squared a k base (bits / k + 1)
  exact ⟨t, run, ⟨entries, fun i outside j => (above i outside j).trans (fresh i j)⟩, frame⟩

variable {k rows : ℕ}

/-- Above an exponent its words are zero. -/
theorem baseTableWord_eq_zero {n row : ℕ} (fits : n < 2 ^ (k * rows)) (outside : rows ≤ row) :
    baseTableWord n k row = 0 := by
  have above : n < 2 ^ (k * row) :=
    fits.trans_le (Nat.pow_le_pow_right (by norm_num) (Nat.mul_le_mul_left k outside))
  rw [baseTableWord_eq, Nat.div_eq_of_lt above, Nat.zero_mod]

/-- The turns leave the power by the words that were walked. -/
theorem baseTableTurns_run (squared : M → M) (table : BaseTable s g k rows) {n : ℕ} (fits : n < 2 ^ (k * rows))
    (m : ℕ) :
    runCalls squared ((List.range m).flatMap (baseTableTurn n k))
      (Function.update s .result (some 1)) =
        some (Function.update s .result (some (g ^ (n % 2 ^ (k * m))))) := by
  induction m with
  | zero => rw [List.range_zero, List.flatMap_nil, runCalls_nil, mul_zero, pow_zero, Nat.mod_one,
      pow_zero]
  | succ m ih =>
    rw [List.range_succ, List.flatMap_append, List.flatMap_singleton, runCalls_append ih,
      mod_succ_row, baseTableTurn]
    by_cases zero : baseTableWord n k m = 0
    · simp only [zero, lt_self_iff_false, if_false, runCalls_nil, zero_mul, add_zero]
    · have inside : m < rows := by
        by_contra outside
        exact zero (baseTableWord_eq_zero fits (not_lt.mp outside))
      have small : baseTableWord n k m < 2 ^ k := by
        rw [baseTableWord_eq]
        exact Nat.mod_lt _ (by positivity)
      have entry : Function.update s .result (some (g ^ (n % 2 ^ (k * m))))
          (.table m (baseTableWord n k m)) = some (g ^ (2 ^ (k * m) * baseTableWord n k m)) :=
        (Function.update_of_ne (fun same => by cases same) _ _).trans (table.entries m inside _ small)
      rw [if_pos (Nat.pos_of_ne_zero zero), runCalls_mul (Function.update_self _ _ _) entry,
        Function.update_idem, ← pow_add, mul_comm (2 ^ (k * m)), runCalls_nil]

/-- A table with a row for every word of the exponent gives the power. -/
theorem elementPowBaseTable_run (table : BaseTable s g k rows) (positive : 0 < k) (x : ι) {n : ℕ}
    (fits : n < 2 ^ (k * rows)) :
    ∃ t, runCalls squared (elementPowBaseTable x n k) s = some t ∧ t (.object x) = some (g ^ n) ∧
      ∀ i, i ≠ x → t (.object i) = s (.object i) := by
  rw [elementPowBaseTable]
  by_cases zero : n = 0
  · rw [if_pos zero]
    exact set1_run s x (by rw [zero, pow_zero])
  · have whole : n < 2 ^ (k * (mpzSizeinbase2 n / k + 1)) := by
      have size : n < 2 ^ mpzSizeinbase2 n := Nat.lt_log2_self
      have places := Nat.lt_mul_div_succ (mpzSizeinbase2 n) positive
      exact size.trans_le (Nat.pow_le_pow_right (by norm_num) places.le)
    have looped := baseTableTurns_run squared table fits (mpzSizeinbase2 n / k + 1)
    rw [Nat.mod_eq_of_lt whole] at looped
    rw [if_neg zero]
    exact set_result_run looped (Function.update_self _ _ _) (update_result_object s _) x

/-- The top word of an exponent is not zero. -/
theorem baseTableWord_top {n : ℕ} (positive : 0 < k) (nonzero : n ≠ 0) :
    0 < baseTableWord n k (n.log2 / k) := by
  have lower : 2 ^ n.log2 ≤ n := Nat.log2_self_le nonzero
  have upper : n < 2 ^ (n.log2 + 1) := Nat.lt_log2_self
  have places := Nat.lt_mul_div_succ n.log2 positive
  have below : n / 2 ^ (k * (n.log2 / k)) < 2 ^ k := by
    rw [Nat.div_lt_iff_lt_mul (by positivity), ← pow_add]
    refine upper.trans_le (Nat.pow_le_pow_right (by norm_num) ?_)
    rw [mul_add_one] at places
    omega
  rw [baseTableWord_eq, Nat.mod_eq_of_lt below]
  exact Nat.div_pos ((Nat.pow_le_pow_right (by norm_num) (Nat.mul_div_le _ _)).trans lower)
    (by positivity)

/-- A longer exponent reads above the last row. -/
theorem elementPowBaseTable_eq_none (table : BaseTable s g k rows) (positive : 0 < k) (x : ι) {n : ℕ}
    (long : 2 ^ (k * rows) ≤ n) : runCalls squared (elementPowBaseTable x n k) s = none := by
  have nonzero : n ≠ 0 := by
    have : 0 < 2 ^ (k * rows) := by positivity
    omega
  have outside : rows ≤ n.log2 / k := by
    rw [Nat.le_div_iff_mul_le positive, mul_comm, Nat.le_log2 nonzero]
    exact long
  have inside : n.log2 / k < mpzSizeinbase2 n / k + 1 :=
    Nat.lt_succ_of_le (Nat.div_le_div_right (Nat.le_succ _))
  have word := baseTableWord_top positive nonzero
  rw [elementPowBaseTable, if_neg nonzero]
  refine runCalls_eq_none (table.above _ outside (baseTableWord n k (n.log2 / k))) ?_ ?_
  · intro call member same
    rw [List.mem_cons, List.mem_append, List.mem_flatMap, List.mem_singleton] at member
    rcases member with rfl | ⟨row, -, member⟩ | rfl
    · cases same
    · rw [baseTableTurn] at member
      split at member
      · obtain rfl := List.mem_singleton.mp member
        cases same
      · cases member
    · cases same
  · refine ⟨.mul .result .result (.table (n.log2 / k) (baseTableWord n k (n.log2 / k))), ?_, ?_⟩
    · refine List.mem_cons_of_mem _ (List.mem_append_left _ (List.mem_flatMap.mpr
        ⟨n.log2 / k, List.mem_range.mpr inside, ?_⟩))
      rw [baseTableTurn, if_pos word]
      exact List.mem_singleton.mpr rfl
    · simp [Call.operands]

/-- In every monoid, after the table of an element was built the routine leaves the power in its
destination exactly when the exponent has no bit above the rows of the table, which are sized by
the order of the field; a longer exponent reads above them. -/
theorem elementPp_exact_iff (squared : M → M) (s : PowCell ι → Option M) (a : ι)
    (base : s (.object a) = some g) (fresh : ∀ i j, s (.table i j) = none) (order : ℕ) :
    ∃ t, runCalls squared (defaultElementPpInit a order) s = some t ∧
      (∀ i, t (.object i) = s (.object i)) ∧
      ∀ t' : PowCell ι → Option M, (∀ i j, t' (.table i j) = t (.table i j)) → ∀ (x : ι) (n : ℕ),
        (∃ u, runCalls squared (defaultElementPpPow x n) t' = some u ∧
          u (.object x) = some (g ^ n) ∧ ∀ i, i ≠ x → u (.object i) = t' (.object i)) ↔
        n < 2 ^ (5 * (mpzSizeinbase2 order / 5 + 1)) := by
  obtain ⟨t, run, table, frame⟩ :=
    elementBuildBaseTable_run squared a (mpzSizeinbase2 order) 5 base fresh
  refine ⟨t, run, frame, fun t' kept x n => ?_⟩
  have table' : BaseTable t' g 5 (mpzSizeinbase2 order / 5 + 1) :=
    ⟨fun i inside j small => (kept i j).trans (table.entries i inside j small),
      fun i outside j => (kept i j).trans (table.above i outside j)⟩
  constructor
  · rintro ⟨u, run', -⟩
    by_contra long
    rw [defaultElementPpPow, elementPowBaseTable_eq_none table' (by norm_num) x (not_lt.mp long)] at run'
    cases run'
  · intro fits
    exact elementPowBaseTable_run table' (by norm_num) x fits

end Values

section Small

/-- Three in the additive group modulo seven, before a table is built. -/
private def smallCells : PowCell (Fin 1) → Option (Multiplicative (ZMod 7))
  | .table _ _ => none
  | _ => some (Multiplicative.ofAdd 3)

theorem elementPp_exact_small :
    ∃ t, runCalls (fun x => x * x) (defaultElementPpInit 0 7) smallCells = some t ∧
      ∃ u, runCalls (fun x => x * x) (defaultElementPpPow 0 31) t = some u ∧
        u (.object 0) = some (Multiplicative.ofAdd 3 ^ 31) :=
  let ⟨t, run, _, exact⟩ := elementPp_exact_iff (fun x => x * x) smallCells 0 rfl (fun _ _ => rfl) 7
  let ⟨u, run', value, _⟩ := (exact t (fun _ _ => rfl) 0 31).mpr (by decide)
  ⟨t, run, u, run', value⟩

/-- In the group of order seven an exponent of six bits reads the second row of a table of one. -/
theorem elementPp_overrun :
    ¬∀ n : ℕ, ∃ t u, runCalls (fun x => x * x) (defaultElementPpInit 0 7) smallCells = some t ∧
      runCalls (fun x => x * x) (defaultElementPpPow 0 n) t = some u ∧
      u (.object 0) = some (Multiplicative.ofAdd 3 ^ n) := by
  intro right
  obtain ⟨t, u, run, run', -⟩ := right 32
  obtain ⟨t', built, table, -⟩ := elementBuildBaseTable_run (fun x => x * x) (s := smallCells) 0
    (mpzSizeinbase2 7) 5 rfl fun _ _ => rfl
  obtain rfl := Option.some.inj (run.symm.trans built)
  rw [defaultElementPpPow, elementPowBaseTable_eq_none table (by norm_num) 0 (by decide)] at run'
  cases run'

end Small

end Pbc.Arith
