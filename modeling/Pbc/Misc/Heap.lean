import Mathlib.Algebra.Order.Monoid.Unbundled.Basic
import Mathlib.Data.Finmap
import Mathlib.Order.Lattice.Nat

/-!
# Blocks of memory

Programs that allocate, read, write and free blocks, and a logic of who owns which of them.
Assertions about parts of the memory form a commutative monoid: the product is that of assertions
about two parts that have no block in common. What a triple says of a program holds next to any
blocks that it does not own, and of any allocator.
-/

namespace Pbc.Misc

section Programs

/-- The live blocks. -/
abbrev Heap (C : Type) := Finmap fun _ : ℕ => C

/-- An allocator finds an address where no block is live. -/
structure Allocator (C : Type) where
  malloc : Heap C → ℕ
  fresh : ∀ h, malloc h ∉ h

/-- The allocator that goes on behind the last block. -/
def bumpAllocator (C : Type) : Allocator C where
  malloc h := h.keys.sup id + 1
  fresh h member := by
    have below : id (h.keys.sup id + 1) ≤ h.keys.sup id := Finset.le_sup (Finmap.mem_keys.2 member)
    exact Nat.not_succ_le_self _ below

/-- How a program stops: at a block that is not live, or for another reason. -/
inductive HeapFault (ε : Type) where
  | dead
  | other (e : ε)
  deriving DecidableEq, Repr

/-- Programs on the heap. -/
abbrev HeapProg (C ε α : Type) := StateT (Heap C) (Except (HeapFault ε)) α

variable {C ε α β : Type}

/-- A new block. -/
def alloc (allocator : Allocator C) (c : C) : HeapProg C ε ℕ :=
  fun h => .ok (allocator.malloc h, h.insert (allocator.malloc h) c)

def load (p : ℕ) : HeapProg C ε C := fun h =>
  match h.lookup p with
  | some c => .ok (c, h)
  | none => .error .dead

def store (p : ℕ) (c : C) : HeapProg C ε Unit := fun h =>
  if p ∈ h then .ok ((), h.insert p c) else .error .dead

def free (p : ℕ) : HeapProg C ε Unit := fun h =>
  if p ∈ h then .ok ((), h.erase p) else .error .dead

/-- What is computed without the heap. -/
def lift (x : Except ε α) : HeapProg C ε α := fun h =>
  match x with
  | .ok a => .ok (a, h)
  | .error e => .error (.other e)

/-- A result that is there is passed on. -/
theorem lift_ok_bind (a : α) (next : α → HeapProg C ε β) : (lift (.ok a) >>= next) = next a := rfl

end Programs

section Assertions

variable {C : Type}

/-- What holds of a part of the heap. -/
def Assertion (C : Type) := Heap C → Prop

namespace Assertion

variable {P Q R : Assertion C}

instance instMul : Mul (Assertion C) where
  mul P Q := fun h => ∃ h₁ h₂, h₁.Disjoint h₂ ∧ h = h₁ ∪ h₂ ∧ P h₁ ∧ Q h₂

/-- The part without blocks. -/
instance instOne : One (Assertion C) where
  one := fun h => h = ∅

theorem mul_apply (P Q : Assertion C) (h : Heap C) :
    (P * Q) h ↔ ∃ h₁ h₂, h₁.Disjoint h₂ ∧ h = h₁ ∪ h₂ ∧ P h₁ ∧ Q h₂ := Iff.rfl

theorem ext (same : ∀ h, P h ↔ Q h) : P = Q := funext fun h => propext (same h)

theorem comm_le {h : Heap C} (both : (P * Q) h) : (Q * P) h := by
  obtain ⟨h₁, h₂, apart, rfl, first, second⟩ := both
  exact ⟨h₂, h₁, apart.symm, Finmap.union_comm_of_disjoint apart, second, first⟩

theorem assoc_le {h : Heap C} (all : (P * Q * R) h) : (P * (Q * R)) h := by
  obtain ⟨_, h₃, apart, rfl, ⟨h₁, h₂, apart', rfl, first, second⟩, third⟩ := all
  rw [Finmap.disjoint_union_left] at apart
  refine ⟨h₁, h₂ ∪ h₃, ?_, Finmap.union_assoc, first, h₂, h₃, apart.2, rfl, second, third⟩
  exact (Finmap.disjoint_union_right ..).2 ⟨apart', apart.1⟩

/-- Ownership of several parts does not depend on their order. -/
instance instCommMonoid : CommMonoid (Assertion C) where
  mul_comm P Q := ext fun _ => ⟨comm_le, comm_le⟩
  mul_assoc P Q R := ext fun _ => ⟨assoc_le, fun all => comm_le (assoc_le (comm_le (assoc_le (comm_le all))))⟩
  one_mul P := ext fun h => by
    constructor
    · rintro ⟨_, h₂, -, rfl, rfl, holds⟩
      rwa [Finmap.empty_union]
    · intro holds
      exact ⟨∅, h, Finmap.disjoint_empty h, Finmap.empty_union.symm, rfl, holds⟩
  mul_one P := ext fun h => by
    constructor
    · rintro ⟨h₁, _, -, rfl, holds, rfl⟩
      rwa [Finmap.union_empty]
    · intro holds
      exact ⟨h, ∅, (Finmap.disjoint_empty h).symm, Finmap.union_empty.symm, holds, rfl⟩

/-- The part with one block. -/
def pointsTo (p : ℕ) (c : C) : Assertion C := fun h => h = Finmap.singleton p c

/-- A part for one of several assertions. -/
def oneOf {ι : Type} (P : ι → Assertion C) : Assertion C := fun h => ∃ i, P i h

/-- A fact, about no block. -/
def fact (φ : Prop) : Assertion C := fun h => φ ∧ h = ∅

theorem oneOf_mul_apply {ι : Type} {P : ι → Assertion C} {h : Heap C} :
    (oneOf P * Q) h ↔ ∃ i, (P i * Q) h := by
  constructor
  · rintro ⟨h₁, h₂, apart, rfl, ⟨i, first⟩, second⟩
    exact ⟨i, h₁, h₂, apart, rfl, first, second⟩
  · rintro ⟨i, h₁, h₂, apart, rfl, first, second⟩
    exact ⟨h₁, h₂, apart, rfl, ⟨i, first⟩, second⟩

theorem fact_mul_apply {φ : Prop} {h : Heap C} : ((fact φ : Assertion C) * P) h ↔ φ ∧ P h := by
  constructor
  · rintro ⟨_, h₂, -, rfl, ⟨true, rfl⟩, holds⟩
    rw [Finmap.empty_union]
    exact ⟨true, holds⟩
  · rintro ⟨true, holds⟩
    exact ⟨∅, h, Finmap.disjoint_empty h, Finmap.empty_union.symm, ⟨true, rfl⟩, holds⟩

@[simp] theorem fact_mul {φ : Prop} (holds : φ) : fact φ * P = P :=
  ext fun _ => fact_mul_apply.trans (and_iff_right holds)

/-- What is said of the same part by both. -/
instance instPreorder : Preorder (Assertion C) where
  le P Q := ∀ h, P h → Q h
  le_refl _ _ := id
  le_trans _ _ _ first second h holds := second h (first h holds)

instance instMulLeftMono : MulLeftMono (Assertion C) where
  elim _ _ _ weaker _ := fun ⟨h₁, h₂, apart, same, first, second⟩ =>
    ⟨h₁, h₂, apart, same, first, weaker h₂ second⟩

theorem le_oneOf {ι : Type} (P : ι → Assertion C) (i : ι) : P i ≤ oneOf P := fun _ holds => ⟨i, holds⟩

theorem pointsTo_mul_apply {p : ℕ} {c : C} {h : Heap C} : (pointsTo p c * P) h ↔
    h.lookup p = some c ∧ P (h.erase p) := by
  constructor
  · rintro ⟨_, h₂, apart, rfl, rfl, holds⟩
    have fresh : p ∉ h₂ := apart p ((Finmap.mem_singleton _ _ _).2 rfl)
    have erased : (Finmap.singleton p c ∪ h₂).erase p = h₂ := by
      refine Finmap.ext_lookup fun q => ?_
      by_cases same : q = p
      · rw [same, Finmap.lookup_erase, Finmap.lookup_eq_none.2 fresh]
      · rw [Finmap.lookup_erase_ne same, Finmap.lookup_union_right]
        rwa [Finmap.mem_singleton]
    refine ⟨?_, by rwa [erased]⟩
    rw [Finmap.lookup_union_left ((Finmap.mem_singleton _ _ _).2 rfl), Finmap.lookup_singleton_eq]
  · rintro ⟨live, holds⟩
    refine ⟨Finmap.singleton p c, h.erase p, ?_, ?_, rfl, holds⟩
    · intro q member
      rw [Finmap.mem_singleton] at member
      rw [member]
      exact Finmap.notMem_erase_self
    · have apart : (h.erase p).Disjoint (Finmap.singleton p c) := by
        intro q member other
        rw [Finmap.mem_singleton] at other
        rw [other] at member
        exact Finmap.notMem_erase_self member
      rw [← Finmap.union_comm_of_disjoint apart, Finmap.erase_union_singleton p c h live]

/-- Two lists of the same length, item by item, in different parts. -/
def each {α β : Type} (R : α → β → Assertion C) : List α → List β → Assertion C
  | [], [] => 1
  | a :: as, b :: bs => R a b * each R as bs
  | _, _ => fact False

theorem each_append {α β : Type} (R : α → β → Assertion C) {as₁ as₂ : List α} {bs₁ bs₂ : List β}
    (lengths : as₁.length = bs₁.length) :
    each R (as₁ ++ as₂) (bs₁ ++ bs₂) = each R as₁ bs₁ * each R as₂ bs₂ := by
  induction as₁ generalizing bs₁ with
  | nil =>
    obtain rfl := List.length_eq_zero_iff.1 lengths.symm
    rw [List.nil_append, List.nil_append, each, one_mul]
  | cons a as₁ ih =>
    cases bs₁ with
    | nil => cases lengths
    | cons b bs₁ =>
      rw [List.cons_append, List.cons_append, each, each, ih (Nat.succ.inj lengths), mul_assoc]

end Assertion

end Assertions

section Triples

variable {C ε α β : Type} {P Q F : Assertion C} {p : ℕ} {c c' : C} {prog : HeapProg C ε α}
  {next : α → HeapProg C ε β} {R : β → Assertion C} {S S' : α → Assertion C} {E : ε → Prop}

open Assertion

/-- With the blocks of `P`, next to any others, a program ends with those of its result, or for a
reason in `E`. -/
def Triple (P : Assertion C) (prog : HeapProg C ε α) (S : α → Assertion C) (E : ε → Prop) : Prop :=
  ∀ F h, (P * F) h → (∃ a h', prog h = .ok (a, h') ∧ (S a * F) h') ∨
    ∃ e, prog h = .error (.other e) ∧ E e

theorem Triple.frame (triple : Triple P prog S E) (F : Assertion C) :
    Triple (P * F) prog (fun a => S a * F) E := by
  intro F' h holds
  rw [mul_assoc] at holds
  simpa only [mul_assoc] using triple (F * F') h holds

theorem Triple.pure {a : α} (weaker : P ≤ S a) : Triple P (pure a) S E := by
  intro F h holds
  exact .inl ⟨a, h, rfl, mul_le_mul_left weaker F h holds⟩

theorem Triple.pure_fact {a : α} {φ : α → Prop} (holds : φ a) (weaker : P ≤ S a) :
    Triple P (Pure.pure a) (fun a => fact (φ a) * S a) E :=
  Triple.pure (by rwa [fact_mul holds])

theorem Triple.pure_closed {a : α} {φ : α → Prop} (holds : φ a) :
    Triple 1 (Pure.pure a) (fun a => (fact (φ a) : Assertion C)) E :=
  Triple.pure fun _ empty => ⟨holds, empty⟩

/-- More is asked for, and less is promised. -/
theorem Triple.mono (triple : Triple Q prog S E) (before : P ≤ Q) (after : ∀ a, S a ≤ S' a) :
    Triple P prog S' E := by
  intro F h holds
  rcases triple F h (mul_le_mul_left before F h holds) with ⟨a, h', run, holds⟩ | stopped
  · exact .inl ⟨a, h', run, mul_le_mul_left (after a) F h' holds⟩
  · exact .inr stopped

/-- One program behind another. -/
theorem Triple.bind (first : Triple P prog S E) (second : ∀ a, Triple (S a) (next a) R E) :
    Triple P (prog >>= next) R E := by
  intro F h holds
  rcases first F h holds with ⟨a, h', run, holds⟩ | ⟨e, run, reason⟩
  · rcases second a F h' holds with ⟨b, h'', run', holds⟩ | ⟨e, run', reason⟩
    · refine .inl ⟨b, h'', ?_, holds⟩
      change (prog h >>= fun out => next out.1 out.2) = _
      rw [run]
      exact run'
    · refine .inr ⟨e, ?_, reason⟩
      change (prog h >>= fun out => next out.1 out.2) = _
      rw [run]
      exact run'
  · refine .inr ⟨e, ?_, reason⟩
    change (prog h >>= fun out => next out.1 out.2) = _
    rw [run]
    rfl

/-- A program that needs only some of the blocks, and what follows it. -/
theorem Triple.call (first : Triple P prog S E) (second : ∀ a, Triple (S a * F) (next a) R E) :
    Triple (P * F) (prog >>= next) R E :=
  (first.frame F).bind second

theorem Triple.of_fact {φ : Prop} (given : φ → Triple P prog S E) :
    Triple (fact φ * P) prog S E := by
  intro F h holds
  rw [mul_assoc] at holds
  obtain ⟨true, holds⟩ := fact_mul_apply.1 holds
  exact given true F h holds

/-- A program with one result, and what follows it. -/
theorem Triple.bind_value {a : α} (first : Triple P prog (fun b => fact (b = a) * Q) E)
    (second : Triple Q (next a) R E) : Triple P (prog >>= next) R E :=
  first.bind fun b => Triple.of_fact fun same => by rwa [same]

/-- The same next to other blocks. -/
theorem Triple.call_value {a : α} (first : Triple P prog (fun b => fact (b = a) * Q) E)
    (second : Triple (Q * F) (next a) R E) : Triple (P * F) (prog >>= next) R E := by
  refine Triple.bind_value ((first.frame F).mono le_rfl fun b => ?_) second
  rw [mul_assoc]

theorem Triple.of_oneOf {ι : Type} {P : ι → Assertion C} (each : ∀ i, Triple (P i) prog S E) :
    Triple (oneOf P) prog S E := by
  intro F h holds
  obtain ⟨i, holds⟩ := oneOf_mul_apply.1 holds
  exact each i F h holds

theorem Triple.of_oneOf_mul {ι : Type} {P : ι → Assertion C}
    (each : ∀ i, Triple (P i * F) prog S E) : Triple (oneOf P * F) prog S E := by
  intro F' h holds
  rw [mul_assoc] at holds
  obtain ⟨i, holds⟩ := oneOf_mul_apply.1 holds
  rw [← mul_assoc] at holds
  exact each i F' h holds

theorem Triple.alloc (allocator : Allocator C) (c : C) :
    Triple 1 (alloc allocator c : HeapProg C ε ℕ) (fun p => pointsTo p c) E := by
  intro F h holds
  rw [one_mul] at holds
  refine .inl ⟨_, _, rfl, pointsTo_mul_apply.2 ⟨Finmap.lookup_insert h, ?_⟩⟩
  have erased : (h.insert (allocator.malloc h) c).erase (allocator.malloc h) = h := by
    refine Finmap.ext_lookup fun q => ?_
    by_cases same : q = allocator.malloc h
    · rw [same, Finmap.lookup_erase, Finmap.lookup_eq_none.2 (allocator.fresh h)]
    · rw [Finmap.lookup_erase_ne same, Finmap.lookup_insert_of_ne h same]
  rwa [erased]

theorem Triple.load : Triple (pointsTo p c) (load p : HeapProg C ε C)
    (fun c' => fact (c' = c) * pointsTo p c) E := by
  intro F h holds
  refine .inl ⟨c, h, ?_, ?_⟩
  · rw [Pbc.Misc.load, (pointsTo_mul_apply.1 holds).1]
  · rw [mul_assoc]
    exact fact_mul_apply.2 ⟨rfl, holds⟩

theorem Triple.store : Triple (pointsTo p c) (store p c' : HeapProg C ε Unit)
    (fun _ => pointsTo p c') E := by
  intro F h holds
  obtain ⟨live, holds⟩ := pointsTo_mul_apply.1 holds
  refine .inl ⟨(), _, if_pos (Finmap.mem_of_lookup_eq_some live), pointsTo_mul_apply.2
    ⟨Finmap.lookup_insert h, ?_⟩⟩
  have erased : (h.insert p c').erase p = h.erase p := by
    refine Finmap.ext_lookup fun q => ?_
    by_cases same : q = p
    · rw [same, Finmap.lookup_erase, Finmap.lookup_erase]
    · rw [Finmap.lookup_erase_ne same, Finmap.lookup_erase_ne same, Finmap.lookup_insert_of_ne h same]
  rwa [erased]

theorem Triple.free : Triple (pointsTo p c) (free p : HeapProg C ε Unit) (fun _ => 1) E := by
  intro F h holds
  obtain ⟨live, holds⟩ := pointsTo_mul_apply.1 holds
  refine .inl ⟨(), _, if_pos (Finmap.mem_of_lookup_eq_some live), ?_⟩
  rwa [one_mul]

/-- A program that owns nothing and leaves nothing finds the heap as it was. -/
theorem Triple.closed {φ : α → Prop} (triple : Triple 1 prog (fun a => fact (φ a)) E) (h : Heap C) :
    (∃ a, prog h = .ok (a, h) ∧ φ a) ∨ ∃ e, prog h = .error (.other e) ∧ E e := by
  let start : Assertion C := fun h' => h' = h
  have holds : (1 * start) h := by rw [one_mul]
  rcases triple start h holds with ⟨a, h', run, holds⟩ | stopped
  · obtain ⟨holds, same⟩ := fact_mul_apply.1 holds
    have same : h' = h := same
    rw [same] at run
    exact .inl ⟨a, run, holds⟩
  · exact .inr stopped

end Triples

section Refinements

variable {C ε α β α' β' : Type} {P P' F : Assertion C} {p : ℕ} {c : C} {prog : HeapProg C ε α}
  {next : α → HeapProg C ε α'} {x : Except ε β} {f : β → Except ε β'} {S S' : β → α → Assertion C}
  {R : β' → α' → Assertion C}

open Assertion

/-- With the blocks of `P`, next to any others, a program ends or stops like a computation without
a heap. -/
def Follows (P : Assertion C) (prog : HeapProg C ε α) (x : Except ε β) (S : β → α → Assertion C) :
    Prop :=
  ∀ F h, (P * F) h →
    match x with
    | .ok b => ∃ a h', prog h = .ok (a, h') ∧ (S b a * F) h'
    | .error e => prog h = .error (.other e)

theorem Follows.frame (follows : Follows P prog x S) (F : Assertion C) :
    Follows (P * F) prog x fun b a => S b a * F := by
  intro F' h holds
  rw [mul_assoc] at holds
  have result := follows (F * F') h holds
  cases x with
  | ok b => simpa only [mul_assoc] using result
  | error e => exact result

theorem Follows.pure {b : β} {a : α} (weaker : P ≤ S b a) :
    Follows P (Pure.pure a : HeapProg C ε α) (Except.ok b : Except ε β) S := fun F h holds =>
  ⟨a, h, rfl, mul_le_mul_left weaker F h holds⟩

theorem Follows.stop (e : ε) : Follows P (lift (.error e) : HeapProg C ε α)
    (Except.error e : Except ε β) S :=
  fun _ _ _ => rfl

theorem Follows.mono (follows : Follows P' prog x S) (before : P ≤ P')
    (after : ∀ b a, S b a ≤ S' b a) : Follows P prog x S' := by
  intro F h holds
  have result := follows F h (mul_le_mul_left before F h holds)
  cases x with
  | ok b =>
    obtain ⟨a, h', run, holds⟩ := result
    exact ⟨a, h', run, mul_le_mul_left (after b a) F h' holds⟩
  | error e => exact result

/-- The parts of a program follow those of a computation. -/
theorem Follows.bind_eq (first : Follows P prog x S)
    (second : ∀ b a, x = .ok b → Follows (S b a) (next a) (f b) R) :
    Follows P (prog >>= next) (x >>= f) R := by
  intro F h holds
  have result := first F h holds
  cases x with
  | ok b =>
    obtain ⟨a, h', run, holds⟩ := result
    have rest := second b a rfl F h' holds
    have runs : (prog >>= next) h = next a h' := by
      change (prog h >>= fun out => next out.1 out.2) = _
      rw [run]
      rfl
    rw [runs]
    exact rest
  | error e =>
    change (prog h >>= fun out => next out.1 out.2) = _
    rw [result]
    rfl

theorem Follows.bind (first : Follows P prog x S)
    (second : ∀ b a, Follows (S b a) (next a) (f b) R) : Follows P (prog >>= next) (x >>= f) R :=
  first.bind_eq fun b a _ => second b a

/-- A part of a program that the computation does not have. -/
theorem Follows.step {T : α → Assertion C} {y : Except ε β'} (first : Triple P prog T fun _ => False)
    (second : ∀ a, Follows (T a) (next a) y R) : Follows P (prog >>= next) y R := by
  intro F h holds
  rcases first F h holds with ⟨a, h', run, holds⟩ | ⟨_, _, stopped⟩
  · have runs : (prog >>= next) h = next a h' := by
      change (prog h >>= fun out => next out.1 out.2) = _
      rw [run]
      rfl
    rw [runs]
    exact second a F h' holds
  · exact stopped.elim

theorem Follows.of_oneOf {ι : Type} {P : ι → Assertion C} (each : ∀ i, Follows (P i) prog x S) :
    Follows (oneOf P) prog x S := by
  intro F h holds
  obtain ⟨i, holds⟩ := oneOf_mul_apply.1 holds
  exact each i F h holds

theorem Follows.of_fact {φ : Prop} (given : φ → Follows P prog x S) :
    Follows (fact φ * P) prog x S := by
  intro F h holds
  rw [mul_assoc] at holds
  obtain ⟨true, holds⟩ := fact_mul_apply.1 holds
  exact given true F h holds

/-- Such a part with one result, next to other blocks. -/
theorem Follows.step_value {a : α} {Q : Assertion C} {y : Except ε β'}
    (first : Triple P prog (fun b => fact (b = a) * Q) fun _ => False)
    (second : Follows (Q * F) (next a) y R) : Follows (P * F) (prog >>= next) y R := by
  refine Follows.step (first.frame F) fun b => ?_
  rw [mul_assoc]
  exact Follows.of_fact fun same => by rwa [same]

/-- What is computed without the heap on both sides. -/
theorem Follows.lift (x : Except ε β) (P : Assertion C) :
    Follows P (lift x : HeapProg C ε β) x fun b a => fact (a = b) * P := by
  cases x with
  | ok b =>
    refine Follows.pure ?_
    rw [fact_mul rfl]
  | error e => exact Follows.stop e

end Refinements

end Pbc.Misc
