import Mathlib.Algebra.Ring.Defs
import Mathlib.Data.Fintype.Basic
import Mathlib.Data.List.FinRange
import Mathlib.Logic.Function.Basic

/-!
# Calls of ring operations on cells

A program without branches assigns to cells the sums, differences, products and squares of cells of
a ring. Cells may be repeated in a call, and a call reads its operands before it writes. A loop
assigns to one cell a turn; when no turn reads what another turn writes, it assigns to all its cells
at once, from what they held before.
-/

namespace Pbc.Algebra

/-- A call; the first cell is its destination. -/
inductive RingCall (κ : Type*) where
  | set (c a : κ)
  | add (c a b : κ)
  | sub (c a b : κ)
  | mul (c a b : κ)
  | square (c a : κ)

variable {κ R : Type*} [DecidableEq κ]

section Calls

variable [Ring R] (squared : R → R)

/-- What a call leaves in the cells. -/
def RingCall.run (cells : κ → R) : RingCall κ → κ → R
  | set c a => Function.update cells c (cells a)
  | add c a b => Function.update cells c (cells a + cells b)
  | sub c a b => Function.update cells c (cells a - cells b)
  | mul c a b => Function.update cells c (cells a * cells b)
  | square c a => Function.update cells c (squared (cells a))

/-- One call after the other. -/
def runRingCalls (calls : List (RingCall κ)) (cells : κ → R) : κ → R :=
  calls.foldl (RingCall.run squared) cells

variable {squared} {cells : κ → R} {calls : List (RingCall κ)} {c a b : κ}

@[simp] theorem runRingCalls_nil : runRingCalls squared [] cells = cells := rfl

@[simp] theorem runRingCalls_set : runRingCalls squared (.set c a :: calls) cells =
    runRingCalls squared calls (Function.update cells c (cells a)) := rfl

@[simp] theorem runRingCalls_add : runRingCalls squared (.add c a b :: calls) cells =
    runRingCalls squared calls (Function.update cells c (cells a + cells b)) := rfl

@[simp] theorem runRingCalls_sub : runRingCalls squared (.sub c a b :: calls) cells =
    runRingCalls squared calls (Function.update cells c (cells a - cells b)) := rfl

@[simp] theorem runRingCalls_mul : runRingCalls squared (.mul c a b :: calls) cells =
    runRingCalls squared calls (Function.update cells c (cells a * cells b)) := rfl

@[simp] theorem runRingCalls_square : runRingCalls squared (.square c a :: calls) cells =
    runRingCalls squared calls (Function.update cells c (squared (cells a))) := rfl

/-- The cell that a call writes. -/
def RingCall.destination : RingCall κ → κ
  | set c _ | add c _ _ | sub c _ _ | mul c _ _ | square c _ => c

/-- Cells that no call writes keep what they hold. -/
theorem runRingCalls_other (apart : ∀ call ∈ calls, c ≠ call.destination) :
    runRingCalls squared calls cells c = cells c := by
  induction calls generalizing cells with
  | nil => rfl
  | cons call calls ih =>
    obtain ⟨first, rest⟩ := List.forall_mem_cons.mp apart
    have step : RingCall.run squared cells call c = cells c := by
      cases call <;> exact Function.update_of_ne first _ _
    exact (ih rest).trans step

end Calls

section Loops

variable {n : ℕ}

/-- A loop that assigns to the cells `dst`, in their order. -/
def assignLoop (dst : Fin n → κ) (value : Fin n → (κ → R) → R) (cells : κ → R) : κ → R :=
  (List.finRange n).foldl (fun cells i => Function.update cells (dst i) (value i cells)) cells

/-- No turn reads what another turn writes. -/
def Independent (dst : Fin n → κ) (value : Fin n → (κ → R) → R) : Prop :=
  ∀ i j, j ≠ i → ∀ cells x, value i (Function.update cells (dst j) x) = value i cells

variable {dst : Fin n → κ} {value : Fin n → (κ → R) → R}

private theorem foldl_other {c : κ} {turns : List (Fin n)} (apart : ∀ i ∈ turns, c ≠ dst i)
    (cells : κ → R) :
    turns.foldl (fun cells i => Function.update cells (dst i) (value i cells)) cells c = cells c := by
  induction turns generalizing cells with
  | nil => rfl
  | cons i turns ih =>
    obtain ⟨first, rest⟩ := List.forall_mem_cons.mp apart
    rw [List.foldl_cons, ih rest, Function.update_of_ne first]

/-- Other cells keep what they hold. -/
theorem assignLoop_other {c : κ} (apart : ∀ i, c ≠ dst i) (cells : κ → R) :
    assignLoop dst value cells c = cells c :=
  foldl_other (fun i _ => apart i) cells

private theorem foldl_self (injective : Function.Injective dst) (independent : Independent dst value)
    {turns : List (Fin n)} (once : turns.Nodup) (cells : κ → R) :
    ∀ i ∈ turns, turns.foldl (fun cells i => Function.update cells (dst i) (value i cells)) cells
      (dst i) = value i cells := by
  induction turns generalizing cells with
  | nil => exact fun i member => absurd member List.not_mem_nil
  | cons j turns ih =>
    obtain ⟨fresh, rest⟩ := List.nodup_cons.mp once
    intro i member
    rw [List.foldl_cons]
    rcases List.mem_cons.mp member with rfl | member
    · have apart : ∀ k ∈ turns, dst i ≠ dst k := by
        intro k later same
        exact fresh (injective same ▸ later)
      rw [foldl_other apart, Function.update_self]
    · have other : j ≠ i := by
        rintro rfl
        exact fresh member
      rw [ih rest _ i member, independent i j other]

/-- Every cell gets its value from what the cells held before the loop. -/
theorem assignLoop_self (injective : Function.Injective dst) (independent : Independent dst value)
    (cells : κ → R) (i : Fin n) : assignLoop dst value cells (dst i) = value i cells :=
  foldl_self injective independent (List.nodup_finRange n) cells i (List.mem_finRange i)

end Loops

end Pbc.Algebra
