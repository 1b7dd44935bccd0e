import Pbc.Algebra.Calls
import Pbc.Arith.Pow

/-!
# Exponentiation as a sequence of calls

The branches of the routines that raise to a power look at the exponent alone, so that an
exponent makes each of them a sequence of calls on the caller's elements and on elements of its
own. In every monoid the sequence leaves the power in its destination, which may be the base, and
reads the table at words of its window only.
-/

open Pbc.Gmp Pbc.Number Pbc.Algebra

namespace Pbc.Arith

/-- The elements of the callers, and those that a routine initialises. -/
inductive PowCell (ι : Type*) where
  | object (i : ι)
  | result
  | lookup (j : ℕ)
  | product
  | multiplier
  | table (row j : ℕ)
  deriving DecidableEq

section Operations

variable {ι : Type*}

/-- `build_pow_window`. -/
def buildPowWindowCalls (a : ι) (k : ℕ) : List (Call (PowCell ι)) :=
  .set1 (.lookup 0) ::
    (List.range (2 ^ k - 1)).map fun s => .mul (.lookup (s + 1)) (.lookup s) (.object a)

/-- The loop of `element_pow_wind` over the lowest `s` bits. -/
def elementPowWindCalls (n k : ℕ) : ℕ → Bool → ℕ → ℕ → List (Call (PowCell ι))
  | 0, _, _, _ => []
  | s + 1, inword, word, wbits =>
      let bit := mpzTstbit n s
      .square .result .result ::
        if !inword && !bit then elementPowWindCalls n k s inword word wbits
        else
          let word := if inword then 2 * word + bit.toNat else 1
          let wbits := if inword then wbits + 1 else 1
          if wbits = k ∨ s = 0 then
            .mul .result .result (.lookup word) :: elementPowWindCalls n k s false word wbits
          else elementPowWindCalls n k s true word wbits

/-- `generic_pow_mpz`. -/
def genericPowCalls (x a : ι) (n : ℕ) : List (Call (PowCell ι)) :=
  if n = 0 then [.set1 (.object x)]
  else
    let k := optimalPowWindowSize n
    buildPowWindowCalls a k ++ (.set1 .result ::
      (elementPowWindCalls n k (mpzSizeinbase2 n) false 0 0 ++ [.set (.object x) .result]))

/-- The loop of `naive_generic_pow_mpz` over the lowest `s` bits. -/
def naiveGenericPowLoopCalls (a : ι) (n : ℕ) : ℕ → List (Call (PowCell ι))
  | 0 => []
  | s + 1 =>
      .square .result .result ::
        if mpzTstbit n s then
          .mul .result .result (.object a) :: naiveGenericPowLoopCalls a n s
        else naiveGenericPowLoopCalls a n s

/-- `naive_generic_pow_mpz`. -/
def naiveGenericPowCalls (x a : ι) (n : ℕ) : List (Call (PowCell ι)) :=
  if n = 0 then [.set1 (.object x)]
  else
    .set1 .result ::
      (naiveGenericPowLoopCalls a n (mpzSizeinbase2 n) ++ [.set (.object x) .result])

end Operations

/-- The table is read at nonzero words of the window. -/
theorem elementPowWindCalls_lookup {ι : Type*} {n k : ℕ} (one : 1 ≤ k) (i : ℕ) {inword : Bool}
    {word wbits : ℕ} (bounded : inword → 0 < word ∧ word < 2 ^ wbits ∧ wbits < k)
    {call : Call (PowCell ι)} (member : call ∈ elementPowWindCalls n k i inword word wbits) {w : ℕ}
    (reads : .lookup w ∈ call.operands) : 1 ≤ w ∧ w < 2 ^ k := by
  induction i generalizing inword word wbits with
  | zero => cases member
  | succ i ih =>
    rw [elementPowWindCalls, List.mem_cons] at member
    rcases member with rfl | member
    · simp [Call.operands] at reads
    · split at member
      · next scanning =>
        rw [Bool.and_eq_true, Bool.not_eq_true'] at scanning
        exact ih (fun inside => absurd (scanning.1.symm.trans inside) Bool.false_ne_true) member
      · have step : 0 < (if inword then 2 * word + (n.testBit i).toNat else 1) ∧
            (if inword then 2 * word + (n.testBit i).toNat else 1) <
              2 ^ (if inword then wbits + 1 else 1) ∧ (if inword then wbits + 1 else 1) ≤ k := by
          cases inword with
          | false =>
            simp only [Bool.false_eq_true, if_false]
            omega
          | true =>
            have room := bounded rfl
            have bit := (n.testBit i).toNat_lt
            simp only [if_true, pow_succ]
            omega
        generalize (if inword then 2 * word + (n.testBit i).toNat else 1) = word' at *
        generalize (if inword then wbits + 1 else 1) = wbits' at *
        obtain ⟨positive, small, room⟩ := step
        by_cases flush : wbits' = k ∨ i = 0
        · rw [if_pos flush, List.mem_cons] at member
          rcases member with rfl | member
          · have same : w = word' := by simpa [Call.operands] using reads
            rw [same]
            exact ⟨positive, small.trans_le (Nat.pow_le_pow_right (by norm_num) room)⟩
          · exact ih (fun inside => absurd inside Bool.false_ne_true) member
        · rw [if_neg flush] at member
          rw [not_or] at flush
          exact ih (fun _ => ⟨positive, small, by omega⟩) member

section Window

variable {ι M : Type*} [DecidableEq ι] [Monoid M] {squared : M → M} {s : PowCell ι → Option M}
  {a x : ι} {g : M}

/-- The table of a window holds every power below `2^k`, and nothing else is written. -/
theorem buildPowWindowCalls_run (base : s (.object a) = some g) (k : ℕ) :
    ∃ t, runCalls squared (buildPowWindowCalls a k) s = some t ∧
      (∀ j, j < 2 ^ k → t (.lookup j) = some (g ^ j)) ∧ ∀ c, (∀ j, c ≠ .lookup j) → t c = s c := by
  have injective : Function.Injective (PowCell.lookup : ℕ → PowCell ι) := fun _ _ => PowCell.lookup.inj
  obtain ⟨t, run, entries, frame⟩ := runCalls_powers squared injective
    (fun j same => by cases same) base (fun _ => Or.inl rfl) (2 ^ k - 1)
  exact ⟨t, run, fun j inside => entries j (by omega), frame⟩

/-- The loop leaves the power in its result and writes nothing else. -/
theorem elementPowWindCalls_run (squared_eq : ∀ x, squared x = x * x) {n k : ℕ} (two : 2 ≤ k)
    (entries : ∀ j, j < 2 ^ k → s (.lookup j) = some (g ^ j)) (i : ℕ) {r : M} {inword : Bool}
    {word wbits : ℕ} (inv : WindowInvariant (fun r x : M => r = x) g n k i r inword word wbits) :
    runCalls squared (elementPowWindCalls n k i inword word wbits)
      (Function.update s .result (some r)) = some (Function.update s .result (some (g ^ n))) := by
  induction i generalizing r inword word wbits with
  | zero =>
    obtain ⟨⟨e, rfl, bits⟩, -, closed⟩ := inv
    rw [closed rfl, if_neg Bool.false_ne_true, Nat.shiftRight_zero] at bits
    rw [elementPowWindCalls, runCalls_nil, bits]
  | succ i ih =>
    obtain ⟨⟨e, rfl, bits⟩, bounded, -⟩ := inv
    have value : g ^ e * g ^ e = g ^ (2 * e) := by rw [← pow_add, two_mul]
    rw [elementPowWindCalls, runCalls_square (Function.update_self _ _ _), Function.update_idem,
      squared_eq, value]
    by_cases scanning : (!inword && !n.testBit i) = true
    · rw [if_pos scanning]
      rw [Bool.and_eq_true, Bool.not_eq_true', Bool.not_eq_true'] at scanning
      obtain ⟨rfl, bit⟩ := scanning
      rw [if_neg Bool.false_ne_true] at bits
      have append := shiftRight_eq_append n i
      rw [bit, Bool.toNat_false, add_zero, bits] at append
      exact ih (.outside word wbits (congrArg (g ^ ·) append.symm))
    · rw [if_neg scanning]
      obtain ⟨append, small, room⟩ := word_step two bits bounded scanning
      generalize (if inword then 2 * word + (n.testBit i).toNat else 1) = word' at *
      generalize (if inword then wbits + 1 else 1) = wbits' at *
      by_cases flush : wbits' = k ∨ i = 0
      · have entry := entries word' (small.trans_le (Nat.pow_le_pow_right (by norm_num) room))
        have apart : (.lookup word' : PowCell ι) ≠ .result := fun same => by cases same
        rw [if_pos flush, runCalls_mul (Function.update_self _ _ _)
          ((Function.update_of_ne apart _ _).trans entry), Function.update_idem, ← pow_add, ← append]
        exact ih (.outside word' wbits' rfl)
      · rw [if_neg flush]
        rw [not_or] at flush
        exact ih ⟨⟨2 * e, rfl, append⟩, fun _ => ⟨small, by omega⟩, fun last => absurd last flush.2⟩

/-- The loop that multiplies bit by bit. -/
theorem naiveGenericPowLoopCalls_run (squared_eq : ∀ x, squared x = x * x) (n : ℕ)
    (base : s (.object a) = some g) (i : ℕ) :
    runCalls squared (naiveGenericPowLoopCalls a n i)
      (Function.update s .result (some (g ^ (n >>> i)))) =
        some (Function.update s .result (some (g ^ n))) := by
  induction i with
  | zero => rw [naiveGenericPowLoopCalls, runCalls_nil, Nat.shiftRight_zero]
  | succ i ih =>
    have append := shiftRight_eq_append n i
    have base' : ∀ r, Function.update s .result r (.object a) = some g := fun r =>
      (Function.update_of_ne (fun same => by cases same) _ _).trans base
    rw [naiveGenericPowLoopCalls, runCalls_square (Function.update_self _ _ _), Function.update_idem,
      squared_eq, ← pow_add, ← two_mul]
    by_cases bit : n.testBit i = true
    · rw [bit, Bool.toNat_true] at append
      rw [if_pos bit, runCalls_mul (Function.update_self _ _ _) (base' _), Function.update_idem,
        ← pow_succ, ← append]
      exact ih
    · rw [if_neg bit]
      rw [Bool.not_eq_true] at bit
      rw [bit, Bool.toNat_false, add_zero] at append
      rw [← append]
      exact ih

/-- A routine starts its result with one and sets its destination to it in the end, and leaves the
other elements as they were. -/
theorem set_result_run {calls : List (Call (PowCell ι))} {t : PowCell ι → Option M}
    (run : runCalls squared calls (Function.update s .result (some 1)) = some t)
    (value : t .result = some g) (frame : ∀ i, t (.object i) = s (.object i)) (x : ι) :
    ∃ t', runCalls squared (.set1 .result :: (calls ++ [.set (.object x) .result])) s = some t' ∧
      t' (.object x) = some g ∧ ∀ i, i ≠ x → t' (.object i) = s (.object i) := by
  rw [runCalls_set1, runCalls_append run, runCalls_set value]
  refine ⟨_, rfl, Function.update_self _ _ _, fun i apart => ?_⟩
  rw [Function.update_of_ne fun same => apart (PowCell.object.inj same)]
  exact frame i

omit [Monoid M] in
/-- The result is no element of a caller. -/
theorem update_result_object (s : PowCell ι → Option M) (r : Option M) (i : ι) :
    Function.update s .result r (.object i) = s (.object i) :=
  Function.update_of_ne (fun same => by cases same) _ _

/-- Where all exponents are zero the destination is set to one. -/
theorem set1_run (s : PowCell ι → Option M) (x : ι) {y : M} (one : y = 1) :
    ∃ t, runCalls squared [.set1 (.object x)] s = some t ∧ t (.object x) = some y ∧
      ∀ i, i ≠ x → t (.object i) = s (.object i) := by
  refine ⟨_, rfl, ?_, fun i apart => ?_⟩
  · rw [Function.update_self, one]
  · exact Function.update_of_ne (fun same => apart (PowCell.object.inj same)) _ _

/-- Above all its bits an exponent is zero. -/
theorem pow_shiftRight_size (g : M) (n : ℕ) : g ^ (n >>> mpzSizeinbase2 n) = 1 := by
  have above : n < 2 ^ mpzSizeinbase2 n := Nat.lt_log2_self
  rw [Nat.shiftRight_eq_zero _ _ above, pow_zero]

theorem genericPowCalls_run (squared_eq : ∀ x, squared x = x * x) (x : ι)
    (base : s (.object a) = some g) (n : ℕ) :
    ∃ t, runCalls squared (genericPowCalls x a n) s = some t ∧ t (.object x) = some (g ^ n) ∧
      ∀ i, i ≠ x → t (.object i) = s (.object i) := by
  rw [genericPowCalls]
  by_cases zero : n = 0
  · rw [if_pos zero]
    exact set1_run s x (by rw [zero, pow_zero])
  · obtain ⟨t, built, entries, frame⟩ := buildPowWindowCalls_run base (optimalPowWindowSize n)
    have looped := elementPowWindCalls_run (s := t) squared_eq (two_le_optimalPowWindowSize n)
      entries (mpzSizeinbase2 n) (.outside 0 0 (pow_shiftRight_size g n).symm)
    rw [if_neg zero]
    dsimp only
    rw [runCalls_append built]
    obtain ⟨t', run, value, frame'⟩ := set_result_run looped (Function.update_self _ _ _)
      (update_result_object t _) x
    refine ⟨t', run, value, fun i apart => (frame' i apart).trans ?_⟩
    exact frame (.object i) fun j same => by cases same

theorem naiveGenericPowCalls_run (squared_eq : ∀ x, squared x = x * x) (x : ι)
    (base : s (.object a) = some g) (n : ℕ) :
    ∃ t, runCalls squared (naiveGenericPowCalls x a n) s = some t ∧
      t (.object x) = some (g ^ n) ∧ ∀ i, i ≠ x → t (.object i) = s (.object i) := by
  rw [naiveGenericPowCalls]
  by_cases zero : n = 0
  · rw [if_pos zero]
    exact set1_run s x (by rw [zero, pow_zero])
  · have looped := naiveGenericPowLoopCalls_run squared_eq n base (mpzSizeinbase2 n)
    rw [pow_shiftRight_size] at looped
    rw [if_neg zero]
    exact set_result_run looped (Function.update_self _ _ _) (update_result_object s _) x

/-- In a monoid, whether or not the destination is the base, both routines leave the power in it
and every other element of the callers as it was, and the table is read at nonzero words of the
window. -/
theorem genericPowCalls_exact (squared_eq : ∀ x, squared x = x * x) (s : PowCell ι → Option M)
    (x a : ι) {g : M} (base : s (.object a) = some g) (n : ℕ) :
    (∃ t, runCalls squared (genericPowCalls x a n) s = some t ∧ t (.object x) = some (g ^ n) ∧
      ∀ i, i ≠ x → t (.object i) = s (.object i)) ∧
    (∃ t, runCalls squared (naiveGenericPowCalls x a n) s = some t ∧
      t (.object x) = some (g ^ n) ∧ ∀ i, i ≠ x → t (.object i) = s (.object i)) ∧
    ∀ call ∈ (elementPowWindCalls n (optimalPowWindowSize n) (mpzSizeinbase2 n) false 0 0 :
        List (Call (PowCell ι))), ∀ word, .lookup word ∈ call.operands →
      1 ≤ word ∧ word < 2 ^ optimalPowWindowSize n := by
  have two := two_le_optimalPowWindowSize n
  refine ⟨genericPowCalls_run squared_eq x base n, naiveGenericPowCalls_run squared_eq x base n, ?_⟩
  intro call member word reads
  exact elementPowWindCalls_lookup (by omega) _ (fun inside => absurd inside Bool.false_ne_true)
    member reads

theorem genericPowCalls_exact_small :
    (∃ t, runCalls (fun x : ℕ => x * x) (genericPowCalls (0 : Fin 1) 0 200) (fun _ => some 3) =
      some t ∧ t (.object 0) = some (3 ^ 200)) ∧
    ∃ t, runCalls (fun x : ℕ => x * x) (naiveGenericPowCalls (0 : Fin 1) 0 200) (fun _ => some 3) =
      some t ∧ t (.object 0) = some (3 ^ 200) :=
  let ⟨⟨t, run, value, _⟩, ⟨t', run', value', _⟩, _⟩ :=
    genericPowCalls_exact (fun _ => rfl) (fun _ => some 3) (0 : Fin 1) 0 rfl 200
  ⟨⟨t, run, value⟩, t', run', value'⟩

/-- The methods of a monoid whose elements are overwritten whole. -/
def monoidMethods (squared : M → M) : ElementMethods M where
  init := 1
  set1 _ := 1
  set _ a := a
  square _ a := .ok (squared a)
  mul _ a b := .ok (a * b)

/-- The sequence leaves what the routine returns over the methods of the monoid. -/
theorem genericPowCalls_refines (squared_eq : ∀ x, squared x = x * x) (x : ι)
    (base : s (.object a) = some g) (n : ℕ) (y : M) :
    ∃ t r, runCalls squared (genericPowCalls x a n) s = some t ∧
      genericPowMpz (monoidMethods squared) y g n = .ok r ∧ t (.object x) = some r := by
  have implements : (monoidMethods squared).Implements fun a g : M => a = g := by
    refine ⟨fun _ => rfl, ?_, ?_⟩
    · rintro c a g rfl
      exact ⟨_, rfl, squared_eq a⟩
    · rintro c a b g h rfl rfl
      exact ⟨_, rfl, rfl⟩
  obtain ⟨t, run, value, -⟩ := genericPowCalls_run squared_eq x base n
  obtain ⟨r, run', rfl⟩ := genericPowMpz_represents implements (fun _ _ _ same => same) y rfl n
  exact ⟨t, _, run, run', value⟩

end Window

end Pbc.Arith
