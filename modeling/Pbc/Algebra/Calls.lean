import Mathlib.Algebra.Group.Defs
import Mathlib.Data.List.Range
import Mathlib.Logic.Function.Basic

/-!
# Sequences of calls on cells

A program without branches assigns to cells the unit, the value of a cell, its square and the
product of two cells of a monoid. A cell that was never written cannot be read. Cells may be
repeated in a call, and a call reads its operands before it writes.
-/

namespace Pbc.Algebra

/-- A call; the first cell is its destination. -/
inductive Call (γ : Type*) where
  | set1 (c : γ)
  | set (c a : γ)
  | square (c a : γ)
  | mul (c a b : γ)

variable {γ M : Type*}

/-- The cell that a call writes. -/
def Call.destination : Call γ → γ
  | set1 c | set c _ | square c _ | mul c _ _ => c

/-- The cells that a call reads. -/
def Call.operands : Call γ → List γ
  | set1 _ => []
  | set _ a | square _ a => [a]
  | mul _ a b => [a, b]

section Runs

variable [DecidableEq γ] [Monoid M] (squared : M → M)

/-- What a call leaves in the cells, unless it reads a cell that was never written. -/
def Call.run (s : γ → Option M) : Call γ → Option (γ → Option M)
  | set1 c => some (Function.update s c (some 1))
  | set c a => (s a).map fun x => Function.update s c (some x)
  | square c a => (s a).map fun x => Function.update s c (some (squared x))
  | mul c a b => (s a).bind fun x => (s b).map fun y => Function.update s c (some (x * y))

/-- One call after the other. -/
def runCalls : List (Call γ) → (γ → Option M) → Option (γ → Option M)
  | [], s => some s
  | call :: calls, s => (call.run squared s).bind (runCalls calls)

variable {squared} {s t : γ → Option M} {calls : List (Call γ)} {a b c : γ} {x y : M}

@[simp] theorem runCalls_nil : runCalls squared [] s = some s := rfl

/-- The rest of a sequence runs from what its first call leaves. -/
theorem runCalls_cons {call : Call γ} (step : call.run squared s = some t) :
    runCalls squared (call :: calls) s = runCalls squared calls t := by
  change (call.run squared s).bind _ = _
  rw [step, Option.bind_some]

theorem runCalls_append (first : runCalls squared calls s = some t) (rest : List (Call γ)) :
    runCalls squared (calls ++ rest) s = runCalls squared rest t := by
  induction calls generalizing s with
  | nil =>
    obtain rfl := Option.some.inj first
    rfl
  | cons call calls ih =>
    obtain ⟨s', step, first⟩ := Option.bind_eq_some_iff.1 first
    rw [List.cons_append, runCalls_cons step]
    exact ih first

theorem runCalls_set1 :
    runCalls squared (.set1 c :: calls) s = runCalls squared calls (Function.update s c (some 1)) :=
  rfl

theorem runCalls_set (value : s a = some x) :
    runCalls squared (.set c a :: calls) s =
      runCalls squared calls (Function.update s c (some x)) := by
  apply runCalls_cons
  change (s a).map _ = _
  rw [value, Option.map_some]

theorem runCalls_square (value : s a = some x) :
    runCalls squared (.square c a :: calls) s =
      runCalls squared calls (Function.update s c (some (squared x))) := by
  apply runCalls_cons
  change (s a).map _ = _
  rw [value, Option.map_some]

theorem runCalls_mul (left : s a = some x) (right : s b = some y) :
    runCalls squared (.mul c a b :: calls) s =
      runCalls squared calls (Function.update s c (some (x * y))) := by
  apply runCalls_cons
  change (s a).bind _ = _
  rw [left, Option.bind_some, right, Option.map_some]

/-- The powers of a base in a row of cells, each made from the one before it by a product with the
base on either side. -/
theorem runCalls_powers (squared : M → M) {cell : ℕ → γ} (injective : Function.Injective cell)
    (apart : ∀ j, b ≠ cell j) (base : s b = some x) {next : ℕ → Call γ}
    (shape : ∀ j, next j = .mul (cell (j + 1)) (cell j) b ∨
      next j = .mul (cell (j + 1)) b (cell j)) (m : ℕ) :
    ∃ t, runCalls squared (.set1 (cell 0) :: (List.range m).map next) s = some t ∧
      (∀ j ≤ m, t (cell j) = some (x ^ j)) ∧ ∀ c, (∀ j, c ≠ cell j) → t c = s c := by
  induction m with
  | zero =>
    refine ⟨_, runCalls_set1, ?_, ?_⟩
    · intro j last
      obtain rfl := Nat.le_zero.mp last
      rw [Function.update_self, pow_zero]
    · intro c other
      exact Function.update_of_ne (other 0) _ _
  | succ m ih =>
    obtain ⟨t, run, entries, frame⟩ := ih
    have base' : t b = some x := (frame b apart).trans base
    have turn : runCalls squared [next m] t =
        some (Function.update t (cell (m + 1)) (some (x ^ (m + 1)))) := by
      rcases shape m with side | side
      · rw [side, runCalls_mul (entries m le_rfl) base', ← pow_succ, runCalls_nil]
      · rw [side, runCalls_mul base' (entries m le_rfl), ← pow_succ', runCalls_nil]
    rw [List.range_succ, List.map_append, ← List.cons_append, runCalls_append run]
    refine ⟨_, turn, ?_, ?_⟩
    · intro j last
      rcases Nat.le_succ_iff.mp last with below | rfl
      · rw [Function.update_of_ne fun same => absurd (injective same) (by omega)]
        exact entries j below
      · exact Function.update_self _ _ _
    · intro c other
      rw [Function.update_of_ne (other (m + 1))]
      exact frame c other

/-- A call writes no other cell than its destination. -/
theorem Call.run_of_ne {call : Call γ} (step : call.run squared s = some t)
    (apart : c ≠ call.destination) : t c = s c := by
  cases call with
  | set1 d =>
    obtain rfl := Option.some.inj step
    exact Function.update_of_ne apart _ _
  | set d a | square d a =>
    obtain ⟨x, -, rfl⟩ := Option.map_eq_some_iff.mp step
    exact Function.update_of_ne apart _ _
  | mul d a b =>
    obtain ⟨x, -, step⟩ := Option.bind_eq_some_iff.mp step
    obtain ⟨y, -, rfl⟩ := Option.map_eq_some_iff.mp step
    exact Function.update_of_ne apart _ _

/-- A call that reads a cell that was never written stops. -/
theorem Call.run_eq_none {call : Call γ} (reads : c ∈ call.operands) (missing : s c = none) :
    call.run squared s = none := by
  cases call with
  | set1 d => cases reads
  | set d a | square d a =>
    obtain rfl := List.mem_singleton.mp reads
    rw [run, missing, Option.map_none]
  | mul d a b =>
    rw [operands, List.mem_cons, List.mem_singleton] at reads
    rcases reads with rfl | rfl
    · rw [run, missing, Option.bind_none]
    · rw [run, missing]
      cases s a <;> rfl

/-- A sequence that reads a cell that was never written and writes it nowhere stops. -/
theorem runCalls_eq_none (missing : s c = none) (unwritten : ∀ call ∈ calls, c ≠ call.destination)
    (reads : ∃ call ∈ calls, c ∈ call.operands) : runCalls squared calls s = none := by
  induction calls generalizing s with
  | nil =>
    obtain ⟨call, member, -⟩ := reads
    cases member
  | cons first calls ih =>
    rw [runCalls, Option.bind_eq_none_iff]
    intro t step
    have missing' : t c = none :=
      (Call.run_of_ne step (unwritten first List.mem_cons_self)).trans missing
    refine ih missing' (fun call member => unwritten call (List.mem_cons_of_mem first member)) ?_
    obtain ⟨call, member, read⟩ := reads
    rcases List.mem_cons.mp member with rfl | member
    · rw [Call.run_eq_none read missing] at step
      cases step
    · exact ⟨call, member, read⟩

end Runs

end Pbc.Algebra
