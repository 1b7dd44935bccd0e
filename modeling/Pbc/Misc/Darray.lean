import Mathlib.Data.List.Basic
import Mathlib.Logic.Function.Basic
import Mathlib.Tactic.NormNum.Basic

/-!
# Dynamic arrays

An array of pointers in a block of slots that grows as items are appended. The block has `max`
slots, of which the first `count` hold the items; the others may hold nothing that was ever
written. Every operation gives the slots it reads, with the count of the array when it began.
-/

namespace Pbc.Misc

section Operations

/-- How an operation ends the program, or leaves what the language defines. -/
inductive DarrayFault where
  | assertion
  | realloc
  | overflow
  | outOfBlock
  deriving DecidableEq, Repr

/-- `darray_s`. -/
structure Darray (α : Type) where
  item : List (Option α)
  count : ℕ
  max : ℕ
  deriving DecidableEq, Repr

/-- A slot that is read, and the count of its array before the operation. -/
structure SlotRead where
  index : ℕ
  count : ℕ
  deriving DecidableEq, Repr

variable {α : Type}

/-- `max_init`. -/
def maxInit : ℕ := 8

/-- `darray_init`. -/
def darrayInit : Darray α := ⟨List.replicate maxInit none, 0, maxInit⟩

/-- A block that keeps its first slots. -/
def resize (item : List (Option α)) (size : ℕ) : List (Option α) :=
  item.take size ++ List.replicate (size - item.length) none

/-- The content of a slot. -/
def readSlot (item : List (Option α)) (i : ℕ) : Except DarrayFault (Option α) :=
  match item[i]? with
  | some p => .ok p
  | none => .error .outOfBlock

/-- Some slots move down by one, to the slots from `n` on. -/
def moveDown (item : List (Option α)) (n size : ℕ) : List (Option α) :=
  item.take n ++ (item.drop (n + 1)).take size ++ item.drop (n + size)

/-- `darray_remove_all`. -/
def darrayRemoveAll (_ : Darray α) : Darray α := ⟨List.replicate maxInit none, 0, maxInit⟩

/-- `darray_remove_last`. -/
def darrayRemoveLast (a : Darray α) : Except DarrayFault (Darray α) :=
  if 0 < a.count then .ok { a with count := a.count - 1 } else .error .assertion

/-- `darray_realloc`; `zeroBlock` says whether the allocator has a block of no bytes. -/
def darrayRealloc (zeroBlock : Bool) (a : Darray α) (size : ℕ) : Except DarrayFault (Darray α) :=
  if size = 0 ∧ zeroBlock = false then .error .realloc
  else .ok { a with item := resize a.item size, max := size }

/-- `darray_append`. -/
def darrayAppend (a : Darray α) (p : α) : Except DarrayFault (Darray α) :=
  let write (a : Darray α) : Except DarrayFault (Darray α) :=
    if a.count < a.item.length then
      .ok { a with item := a.item.set a.count (some p), count := a.count + 1 }
    else .error .outOfBlock
  if a.count = a.max then
    let max := if a.max = 0 then maxInit else a.max * 2
    if 2 ^ 31 ≤ max then .error .overflow
    else write { a with item := resize a.item max, max := max }
  else write a

/-- `darray_remove_index`; the size of what moves is taken without a sign. -/
def darrayRemoveIndex (a : Darray α) (n : ℕ) : Except DarrayFault (Darray α × List ℕ) :=
  if n ≤ a.count + 1 then
    if n < a.count then
      let count := a.count - 1
      .ok ({ a with item := moveDown a.item n (count - n), count },
        (List.range (count - n)).map (n + 1 + ·))
    else .error .outOfBlock
  else .error .assertion

/-- The loop of `darray_remove`, from slot `i` on. -/
def darrayRemoveLoop [DecidableEq α] (a : Darray α) (p : α) :
    ℕ → ℕ → Except DarrayFault (Darray α × List ℕ)
  | 0, _ => .error .assertion
  | steps + 1, i => do
    let slot ← readSlot a.item i
    if slot = some p then
      let count := a.count - 1
      return ({ a with item := moveDown a.item i (count - i), count },
        i :: (List.range (count - i)).map (i + 1 + ·))
    let (a, reads) ← darrayRemoveLoop a p steps (i + 1)
    return (a, i :: reads)

/-- `darray_remove`. -/
def darrayRemove [DecidableEq α] (a : Darray α) (p : α) : Except DarrayFault (Darray α × List ℕ) :=
  darrayRemoveLoop a p a.count 0

/-- The inner loop of `darray_remove_with_test`, from slot `i` on. -/
def shiftLoop : ℕ → ℕ → List (Option α) → Except DarrayFault (List (Option α) × List ℕ)
  | 0, _, item => .ok (item, [])
  | steps + 1, i, item => do
    let slot ← readSlot item (i + 1)
    let (item, reads) ← shiftLoop steps (i + 1) (item.set i slot)
    return (item, (i + 1) :: reads)

/-- The outer loop of `darray_remove_with_test`, from slot `i` on. The inner loop moves the index
of the outer one to the count. -/
def darrayTestLoop (test : α → Bool) : ℕ → ℕ → Darray α → Except DarrayFault (Darray α × List ℕ)
  | 0, _, a => .ok (a, [])
  | steps + 1, i, a =>
    if i < a.count then do
      let slot ← readSlot a.item i
      match slot with
      | none => .error .outOfBlock
      | some p =>
        if test p then
          let (item, shifted) ← shiftLoop (a.count - i) i a.item
          let (a, reads) ← darrayTestLoop test steps (a.count + 1)
            { a with item, count := a.count - 1 }
          return (a, i :: (shifted ++ reads))
        else
          let (a, reads) ← darrayTestLoop test steps (i + 1) a
          return (a, i :: reads)
    else .ok (a, [])

/-- `darray_remove_with_test`. -/
def darrayRemoveWithTest (test : α → Bool) (a : Darray α) :
    Except DarrayFault (Darray α × List ℕ) :=
  darrayTestLoop test a.count 0 a

end Operations

section Programs

variable (ι α : Type)

/-- The operations on the arrays of a program. -/
inductive DarrayOp where
  | append (a : ι) (p : α)
  | removeLast (a : ι)
  | removeIndex (a : ι) (n : ℕ)
  | remove (a : ι) (p : α)
  | removeWithTest (a : ι) (test : α → Bool)
  | copy (dst src : ι)
  | removeAll (a : ι)

variable {ι α} [DecidableEq ι] [DecidableEq α]

/-- An operation on one array. -/
def onArray (s : ι → Darray α) (a : ι) (result : Except DarrayFault (Darray α × List ℕ)) :
    Except DarrayFault ((ι → Darray α) × List SlotRead) := do
  let (array, reads) ← result
  return (Function.update s a array, reads.map (⟨·, (s a).count⟩))

/-- `darray_copy`. -/
def darrayCopy (zeroBlock : Bool) (s : ι → Darray α) (dst src : ι) :
    Except DarrayFault ((ι → Darray α) × List SlotRead) := do
  let array ← darrayRealloc zeroBlock (s dst) (s src).count
  let s := Function.update s dst array
  let count := (s src).count
  let slots ← (List.range count).mapM (readSlot (s src).item)
  let item := slots ++ (s dst).item.drop count
  return (Function.update s dst { s dst with item, count }, (List.range count).map (⟨·, count⟩))

/-- One operation. -/
def DarrayOp.run (zeroBlock : Bool) (s : ι → Darray α) :
    DarrayOp ι α → Except DarrayFault ((ι → Darray α) × List SlotRead)
  | .append a p => onArray s a ((darrayAppend (s a) p).map (·, []))
  | .removeLast a => onArray s a ((darrayRemoveLast (s a)).map (·, []))
  | .removeIndex a n => onArray s a (darrayRemoveIndex (s a) n)
  | .remove a p => onArray s a (darrayRemove (s a) p)
  | .removeWithTest a test => onArray s a (darrayRemoveWithTest test (s a))
  | .copy dst src => darrayCopy zeroBlock s dst src
  | .removeAll a => onArray s a (.ok (darrayRemoveAll (s a), []))

/-- A program of operations. -/
def runOps (zeroBlock : Bool) : List (DarrayOp ι α) → (ι → Darray α) →
    Except DarrayFault ((ι → Darray α) × List SlotRead)
  | [], s => .ok (s, [])
  | op :: ops, s => do
    let (s, reads) ← op.run zeroBlock s
    let (s, rest) ← runOps zeroBlock ops s
    return (s, reads ++ rest)

/-- The operation on lists. -/
def DarrayOp.perform (l : ι → List α) : DarrayOp ι α → ι → List α
  | .append a p => Function.update l a (l a ++ [p])
  | .removeLast a => Function.update l a (l a).dropLast
  | .removeIndex a n => Function.update l a ((l a).eraseIdx n)
  | .remove a p => Function.update l a ((l a).erase p)
  | .removeWithTest a test => Function.update l a ((l a).filter fun p => !test p)
  | .copy dst src => Function.update l dst (l src)
  | .removeAll a => Function.update l a []

/-- The program on lists. -/
def performOps (l : ι → List α) (ops : List (DarrayOp ι α)) : ι → List α :=
  ops.foldl DarrayOp.perform l

/-- The index exists, the item is present, and there is a last item. -/
def DarrayOp.Valid (l : ι → List α) : DarrayOp ι α → Prop
  | .removeLast a => l a ≠ []
  | .removeIndex a n => n < (l a).length
  | .remove a p => p ∈ l a
  | _ => True

/-- No item is found by a test, nothing is copied from an empty array where the allocator has no
block of no bytes, and the slots that are added can be counted. -/
def DarrayOp.Spared (zeroBlock : Bool) (s : ι → Darray α) (l : ι → List α) : DarrayOp ι α → Prop
  | .append a _ => (s a).count = (s a).max → (s a).max * 2 < 2 ^ 31
  | .removeWithTest a test => ∀ p ∈ l a, test p = false
  | .copy _ src => zeroBlock = false → l src ≠ []
  | _ => True

/-- All operations of a program are valid. -/
def ValidOps : List (DarrayOp ι α) → (ι → List α) → Prop
  | [], _ => True
  | op :: ops, l => op.Valid l ∧ ValidOps ops (op.perform l)

/-- All operations of a program are spared. -/
def SparedOps (zeroBlock : Bool) : List (DarrayOp ι α) → (ι → Darray α) → (ι → List α) → Prop
  | [], _, _ => True
  | op :: ops, s, l => op.Spared zeroBlock s l ∧
      ∀ s' reads, op.run zeroBlock s = .ok (s', reads) → SparedOps zeroBlock ops s' (op.perform l)

end Programs

section Arrays

variable {α : Type}

/-- The array holds the items of a list. -/
structure Darray.Holds (a : Darray α) (l : List α) : Prop where
  block : a.item.length = a.max
  count : a.count = l.length
  items : ∃ rest, a.item = l.map some ++ rest

variable {a : Darray α} {l : List α}

/-- There are never more items than slots. -/
theorem Darray.Holds.room (holds : a.Holds l) : a.count ≤ a.max := by
  obtain ⟨rest, items⟩ := holds.items
  rw [← holds.block, holds.count, items, List.length_append, List.length_map]
  exact Nat.le_add_right _ _

theorem darrayInit_holds : (darrayInit : Darray α).Holds [] where
  block := List.length_replicate
  count := rfl
  items := ⟨_, rfl⟩

theorem darrayRemoveAll_holds (a : Darray α) : (darrayRemoveAll a).Holds [] := darrayInit_holds

/-- The slots below the count hold the items. -/
theorem Darray.Holds.readSlot (holds : a.Holds l) {i : ℕ} (inside : i < l.length) :
    readSlot a.item i = .ok (some l[i]) := by
  obtain ⟨rest, items⟩ := holds.items
  have slot : a.item[i]? = some (some l[i]) := by
    rw [items, List.getElem?_append_left (by rwa [List.length_map]), List.getElem?_map,
      List.getElem?_eq_getElem inside]
    rfl
  rw [Pbc.Misc.readSlot, slot]

theorem length_resize (item : List (Option α)) (size : ℕ) : (resize item size).length = size := by
  rw [resize, List.length_append, List.length_take, List.length_replicate]
  omega

/-- A block that is not made smaller keeps all of its slots. -/
theorem resize_of_le {item : List (Option α)} {size : ℕ} (larger : item.length ≤ size) :
    ∃ rest, resize item size = item ++ rest := by
  refine ⟨List.replicate (size - item.length) none, ?_⟩
  rw [resize, List.take_of_length_le larger]

/-- An item goes to the slot behind the others. -/
theorem Darray.Holds.set (holds : a.Holds l) (p : α) (open' : a.count < a.max) :
    ({ a with item := a.item.set a.count (some p), count := a.count + 1 } : Darray α).Holds
      (l ++ [p]) := by
  obtain ⟨rest, items⟩ := holds.items
  refine ⟨?_, ?_, ?_⟩
  · rw [List.length_set]
    exact holds.block
  · rw [List.length_append, holds.count]
    rfl
  · cases rest with
    | nil =>
      have full := holds.block
      rw [items, List.append_nil, List.length_map, ← holds.count] at full
      omega
    | cons slot rest =>
      refine ⟨rest, ?_⟩
      rw [items, holds.count, List.set_append_right _ _ (by rw [List.length_map]), List.length_map,
        Nat.sub_self, List.map_append, List.append_assoc]
      rfl

theorem darrayAppend_holds (holds : a.Holds l) (p : α)
    (counted : a.count = a.max → a.max * 2 < 2 ^ 31) :
    ∃ a', darrayAppend a p = .ok a' ∧ a'.Holds (l ++ [p]) := by
  have room := holds.room
  have block := holds.block
  by_cases full : a.count = a.max
  · obtain ⟨max, larger, small, grown⟩ : ∃ max, a.max < max ∧ max < 2 ^ 31 ∧
        (if a.max = 0 then maxInit else a.max * 2) = max := by
      have fits := counted full
      refine ⟨_, ?_, ?_, rfl⟩
      · split
        · next zero =>
          rw [zero]
          decide
        · omega
      · split
        · decide
        · exact fits
    have grownHolds : ({ a with item := resize a.item max, max := max } : Darray α).Holds l := by
      obtain ⟨rest, items⟩ := holds.items
      obtain ⟨fresh, kept⟩ : ∃ rest, resize a.item max = a.item ++ rest :=
        resize_of_le (by omega)
      refine ⟨length_resize _ _, holds.count, rest ++ fresh, ?_⟩
      rw [kept, items, List.append_assoc]
    refine ⟨_, ?_, grownHolds.set p (by rw [full]; exact larger)⟩
    have below : a.count < (resize a.item max).length := by
      rw [length_resize]
      omega
    simp only [darrayAppend, if_pos full, grown, if_neg (Nat.not_le.mpr small), if_pos below]
  · refine ⟨_, ?_, holds.set p (by omega)⟩
    have below : a.count < a.item.length := by omega
    simp only [darrayAppend, if_neg full, if_pos below]

theorem darrayRemoveLast_holds (holds : a.Holds l) (nonempty : l ≠ []) :
    ∃ a', darrayRemoveLast a = .ok a' ∧ a'.Holds l.dropLast := by
  have positive : 0 < a.count := by
    rw [holds.count]
    exact List.length_pos_iff.mpr nonempty
  refine ⟨_, if_pos positive, holds.block, ?_, ?_⟩
  · rw [List.length_dropLast, holds.count]
  · obtain ⟨rest, items⟩ := holds.items
    refine ⟨some (l.getLast nonempty) :: rest, ?_⟩
    rw [items]
    conv_lhs => rw [← List.dropLast_append_getLast nonempty, List.map_append, List.append_assoc]
    rfl

/-- The items behind a slot move down over it. -/
theorem Darray.Holds.moveDown (holds : a.Holds l) {n : ℕ} (inside : n < l.length) :
    ({ a with item := moveDown a.item n (a.count - 1 - n), count := a.count - 1 } :
      Darray α).Holds (l.eraseIdx n) := by
  obtain ⟨rest, items⟩ := holds.items
  have front : a.item.take n = (l.take n).map some := by
    rw [items, List.take_append_of_le_length (by rw [List.length_map]; omega), List.map_take]
  have back : (a.item.drop (n + 1)).take (a.count - 1 - n) = (l.drop (n + 1)).map some := by
    rw [items, List.drop_append_of_le_length (by rw [List.length_map]; omega), ← List.map_drop,
      List.take_append_of_le_length (by rw [List.length_map, List.length_drop, holds.count]; omega),
      List.take_of_length_le (by rw [List.length_map, List.length_drop, holds.count]; omega)]
  have room := holds.room
  refine ⟨?_, ?_, a.item.drop (n + (a.count - 1 - n)), ?_⟩
  · rw [← holds.block, Pbc.Misc.moveDown, List.length_append, List.length_append, front, back,
      List.length_map, List.length_map, List.length_take, List.length_drop, List.length_drop,
      holds.block]
    have count := holds.count
    omega
  · rw [List.length_eraseIdx_of_lt inside, holds.count]
  · rw [List.eraseIdx_eq_take_drop_succ, List.map_append, Pbc.Misc.moveDown, front, back]

theorem darrayRemoveIndex_holds (holds : a.Holds l) {n : ℕ} (inside : n < l.length) :
    ∃ a' reads, darrayRemoveIndex a n = .ok (a', reads) ∧ (∀ i ∈ reads, i < a.count) ∧
      a'.Holds (l.eraseIdx n) := by
  have below : n < a.count := by rwa [holds.count]
  have run : darrayRemoveIndex a n = .ok
      ({ a with item := moveDown a.item n (a.count - 1 - n), count := a.count - 1 },
        (List.range (a.count - 1 - n)).map (n + 1 + ·)) := by
    rw [darrayRemoveIndex, if_pos (by omega), if_pos below]
  refine ⟨_, _, run, ?_, holds.moveDown inside⟩
  intro i member
  obtain ⟨k, less, rfl⟩ := List.mem_map.mp member
  rw [List.mem_range] at less
  omega

/-- The scan for an item from a slot on that is not behind it. -/
theorem darrayRemoveLoop_holds [DecidableEq α] (holds : a.Holds l) {p : α} (present : p ∈ l)
    {steps i : ℕ} (range : i + steps = l.length) (ahead : i ≤ l.idxOf p) :
    ∃ reads, darrayRemoveLoop a p steps i = .ok
      ({ a with item := moveDown a.item (l.idxOf p) (a.count - 1 - l.idxOf p),
                count := a.count - 1 }, reads) ∧ ∀ r ∈ reads, r < a.count := by
  have inside := List.idxOf_lt_length_of_mem present
  have count := holds.count
  induction steps generalizing i with
  | zero => omega
  | succ steps ih =>
    have below : i < l.length := by omega
    have slot := holds.readSlot below
    simp only [darrayRemoveLoop, slot, bind, Except.bind]
    by_cases found : some l[i] = some p
    · rw [if_pos found]
      have same : i = l.idxOf p := by
        by_contra other
        have before : i < l.findIdx (· == p) := Nat.lt_of_le_of_ne ahead other
        have differs := List.not_of_lt_findIdx before
        exact Bool.false_ne_true (differs.symm.trans (beq_iff_eq.mpr (Option.some.inj found)))
      subst same
      refine ⟨_, rfl, ?_⟩
      intro r member
      rcases List.mem_cons.mp member with rfl | moved
      · omega
      · obtain ⟨k, less, rfl⟩ := List.mem_map.mp moved
        rw [List.mem_range] at less
        omega
    · rw [if_neg found]
      have later : i + 1 ≤ l.idxOf p := by
        rcases Nat.lt_or_eq_of_le ahead with less | equal
        · exact less
        · subst equal
          rw [List.getElem_idxOf] at found
          exact absurd rfl found
      obtain ⟨reads, run, bounded⟩ := ih (by omega) later
      refine ⟨i :: reads, by rw [run]; rfl, ?_⟩
      intro r member
      rcases List.mem_cons.mp member with rfl | rest
      · omega
      · exact bounded r rest

theorem darrayRemove_holds [DecidableEq α] (holds : a.Holds l) {p : α} (present : p ∈ l) :
    ∃ a' reads, darrayRemove a p = .ok (a', reads) ∧ (∀ i ∈ reads, i < a.count) ∧
      a'.Holds (l.erase p) := by
  obtain ⟨reads, run, bounded⟩ := darrayRemoveLoop_holds holds present
    (Nat.zero_add l.length) (Nat.zero_le (l.idxOf p))
  rw [← holds.count] at run
  refine ⟨_, reads, run, bounded, ?_⟩
  rw [List.erase_eq_eraseIdx_of_idxOf rfl]
  exact holds.moveDown (List.idxOf_lt_length_of_mem present)

/-- A scan that finds nothing reads the items and changes nothing. -/
theorem darrayTestLoop_none (holds : a.Holds l) {test : α → Bool} (none : ∀ p ∈ l, test p = false)
    {steps i : ℕ} (range : i + steps = l.length) :
    ∃ reads, darrayTestLoop test steps i a = .ok (a, reads) ∧ ∀ r ∈ reads, r < a.count := by
  have count := holds.count
  induction steps generalizing i with
  | zero =>
    refine ⟨[], rfl, ?_⟩
    intro r member
    cases member
  | succ steps ih =>
    have below : i < l.length := by omega
    have slot := holds.readSlot below
    obtain ⟨reads, run, bounded⟩ := ih (i := i + 1) (by omega)
    refine ⟨i :: reads, ?_, ?_⟩
    · rw [darrayTestLoop, if_pos (by omega)]
      simp only [slot, bind, Except.bind, none _ (List.getElem_mem below), Bool.false_eq_true,
        if_false, run, pure, Except.pure]
    · intro r member
      rcases List.mem_cons.mp member with rfl | rest
      · omega
      · exact bounded r rest

/-- The slots that the inner loop reads end behind the ones that it writes. -/
theorem shiftLoop_reads {steps i : ℕ} {item item' : List (Option α)} {reads : List ℕ}
    (positive : 0 < steps) (run : shiftLoop steps i item = .ok (item', reads)) :
    i + steps ∈ reads := by
  induction steps generalizing i item reads with
  | zero => omega
  | succ steps ih =>
    simp only [shiftLoop, bind, Except.bind] at run
    split at run
    · cases run
    · next slot read =>
      split at run
      · cases run
      · next result shifted =>
        cases run
        cases steps with
        | zero => exact List.mem_cons_self
        | succ steps =>
          have rest := ih (Nat.succ_pos steps) shifted
          rw [Nat.add_assoc, Nat.add_comm 1] at rest
          exact List.mem_cons_of_mem _ rest

/-- A scan that finds an item reads the slot behind the last one. -/
theorem darrayTestLoop_reads (holds : a.Holds l) {test : α → Bool} {steps i : ℕ}
    (range : i + steps = l.length) {p : α} (found : p ∈ l.drop i) (positive : test p = true)
    {a' : Darray α} {reads : List ℕ} (run : darrayTestLoop test steps i a = .ok (a', reads)) :
    a.count ∈ reads := by
  have count := holds.count
  induction steps generalizing i reads with
  | zero =>
    rw [List.drop_eq_nil_of_le (by omega)] at found
    cases found
  | succ steps ih =>
    have below : i < l.length := by omega
    have slot := holds.readSlot below
    rw [darrayTestLoop, if_pos (by omega)] at run
    simp only [slot, bind, Except.bind] at run
    by_cases here : test l[i] = true
    · rw [if_pos here] at run
      split at run
      · cases run
      · next shifted =>
        split at run
        · cases run
        · cases run
          have last := shiftLoop_reads (by omega) shifted
          rw [Nat.add_sub_cancel' (by omega)] at last
          exact List.mem_cons_of_mem _ (List.mem_append_left _ last)
    · rw [if_neg here] at run
      rw [List.drop_eq_getElem_cons below] at found
      rcases List.mem_cons.mp found with rfl | later
      · exact absurd positive here
      · split at run
        · cases run
        · next rest =>
          cases run
          exact List.mem_cons_of_mem _ (ih (by omega) later rest)

/-- The slots from one on, read one after the other. -/
theorem mapM_readSlot (item : List (Option α)) {i n : ℕ} (inside : i + n ≤ item.length) :
    (List.range' i n).mapM (readSlot item) = .ok ((item.drop i).take n) := by
  induction n generalizing i with
  | zero => rfl
  | succ n ih =>
    have below : i < item.length := by omega
    have first : readSlot item i = .ok item[i] := by rw [readSlot, List.getElem?_eq_getElem below]
    rw [List.range'_succ, List.mapM_cons, first, ih (by omega), List.drop_eq_getElem_cons below]
    rfl

end Arrays

section Runs

variable {ι α : Type} [DecidableEq ι] {s : ι → Darray α} {l : ι → List α}

/-- All arrays of a program hold the items of lists. -/
def HoldAll (s : ι → Darray α) (l : ι → List α) : Prop := ∀ a, (s a).Holds (l a)

/-- A program ends, reads only slots below the counts, has room for its items, and does what is
done to the lists. -/
def Matches (result : Except DarrayFault ((ι → Darray α) × List SlotRead)) (l : ι → List α) : Prop :=
  ∃ s' reads, result = .ok (s', reads) ∧ (∀ r ∈ reads, r.index < r.count) ∧
    ∀ a, (s' a).count ≤ (s' a).max ∧ (s' a).Holds (l a)

omit [DecidableEq ι] in
theorem HoldAll.matches (holds : HoldAll s l)
    {result : Except DarrayFault ((ι → Darray α) × List SlotRead)} {reads : List SlotRead}
    (run : result = .ok (s, reads)) (bounded : ∀ r ∈ reads, r.index < r.count) : Matches result l := by
  refine ⟨s, reads, run, bounded, ?_⟩
  intro a
  exact ⟨(holds a).room, holds a⟩

omit [DecidableEq ι] in
theorem Matches.holds {result : Except DarrayFault ((ι → Darray α) × List SlotRead)}
    {reads : List SlotRead} (matched : Matches result l) (run : result = .ok (s, reads)) :
    (∀ r ∈ reads, r.index < r.count) ∧ HoldAll s l := by
  obtain ⟨s', reads', run', bounded, holds⟩ := matched
  cases run.symm.trans run'
  exact ⟨bounded, fun a => (holds a).2⟩

theorem HoldAll.update (holds : HoldAll s l) {a : ι} {array : Darray α} {items : List α}
    (one : array.Holds items) : HoldAll (Function.update s a array) (Function.update l a items) := by
  intro b
  by_cases same : b = a
  · subst same
    rwa [Function.update_self, Function.update_self]
  · rw [Function.update_of_ne same, Function.update_of_ne same]
    exact holds b

theorem onArray_matches (holds : HoldAll s l) {a : ι} {result : Except DarrayFault (Darray α × List ℕ)}
    {array : Darray α} {reads : List ℕ} {items : List α} (run : result = .ok (array, reads))
    (bounded : ∀ r ∈ reads, r < (s a).count) (one : array.Holds items) :
    Matches (onArray s a result) (Function.update l a items) := by
  refine (holds.update one).matches (by rw [onArray, run]; rfl) ?_
  intro r member
  obtain ⟨index, inside, rfl⟩ := List.mem_map.mp member
  exact bounded index inside

/-- The array copied from, after the other one has got a block of its size. -/
theorem HoldAll.source (holds : HoldAll s l) (dst src : ι) {array : Darray α}
    (grown : array = { s dst with item := resize (s dst).item (s src).count, max := (s src).count }) :
    ((Function.update s dst array) src).count = (s src).count ∧
      (s src).count ≤ ((Function.update s dst array) src).item.length ∧
      ((Function.update s dst array) src).item.take (s src).count = (l src).map some := by
  obtain ⟨rest, items⟩ := (holds src).items
  have count := (holds src).count
  have front : (s src).item.take (s src).count = (l src).map some := by
    rw [items, count, List.take_append_of_le_length (by rw [List.length_map]),
      List.take_of_length_le (by rw [List.length_map])]
  by_cases same : src = dst
  · subst same
    rw [Function.update_self, grown]
    refine ⟨rfl, Nat.le_of_eq (length_resize _ _).symm, ?_⟩
    have larger : (s src).count ≤ (s src).item.length := by
      rw [(holds src).block]
      exact (holds src).room
    rw [resize, List.take_append_of_le_length (by rw [List.length_take]; omega), List.take_take,
      Nat.min_self, front]
  · rw [Function.update_of_ne same]
    refine ⟨rfl, ?_, front⟩
    rw [(holds src).block]
    exact (holds src).room

theorem darrayCopy_matches (holds : HoldAll s l) {zeroBlock : Bool} {dst src : ι}
    (spared : zeroBlock = false → l src ≠ []) :
    Matches (darrayCopy zeroBlock s dst src) (Function.update l dst (l src)) := by
  have count := (holds src).count
  obtain ⟨array, grown⟩ : ∃ array, array =
      { s dst with item := resize (s dst).item (s src).count, max := (s src).count } := ⟨_, rfl⟩
  have run : darrayRealloc zeroBlock (s dst) (s src).count = .ok array := by
    rw [darrayRealloc, if_neg, grown]
    rintro ⟨zero, none⟩
    rw [count] at zero
    exact spared none (List.eq_nil_of_length_eq_zero zero)
  obtain ⟨kept, inside, front⟩ := holds.source dst src grown
  have slots : (List.range (s src).count).mapM
      (readSlot ((Function.update s dst array) src).item) = .ok ((l src).map some) := by
    rw [List.range_eq_range', mapM_readSlot _ (by rwa [Nat.zero_add]), List.drop_zero, front]
  have block : array.item.length = (s src).count := by rw [grown, length_resize]
  have copied : ({ item := (l src).map some, count := (s src).count, max := (s src).count } :
      Darray α).Holds (l src) := by
    refine ⟨?_, count, [], (List.append_nil _).symm⟩
    rw [List.length_map, count]
  obtain ⟨reads, slotReads⟩ : ∃ reads : List SlotRead,
      reads = (List.range (s src).count).map (⟨·, (s src).count⟩) := ⟨_, rfl⟩
  have bounded : ∀ r ∈ reads, r.index < r.count := by
    intro r member
    rw [slotReads] at member
    obtain ⟨index, below, rfl⟩ := List.mem_map.mp member
    exact List.mem_range.mp below
  refine (holds.update (a := dst) copied).matches ?_ bounded
  · simp only [slotReads]
    simp only [darrayCopy, run, bind, Except.bind, kept, slots, pure, Except.pure,
      Function.update_self, Function.update_idem]
    rw [List.drop_eq_nil_of_le (Nat.le_of_eq block), List.append_nil, grown]

omit [DecidableEq ι] in
/-- The capacity is an `int`. -/
theorem darrayAppend_overflow {array : Darray α} (full : array.count = array.max)
    (large : ¬array.max * 2 < 2 ^ 31) (p : α) : darrayAppend array p = .error .overflow := by
  have nonzero : array.max ≠ 0 := by
    intro zero
    rw [zero] at large
    exact large (by decide)
  simp only [darrayAppend, if_pos full, if_neg nonzero]
  exact if_pos (Nat.not_lt.mp large)

/-- Where the slot behind the last item is not read, the test finds nothing. -/
theorem HoldAll.not_found (holds : HoldAll s l) {a : ι} {test : α → Bool} {l' : ι → List α}
    (matched : Matches (onArray s a (darrayRemoveWithTest test (s a))) l') :
    ∀ p ∈ l a, test p = false := by
  obtain ⟨s', reads, run, bounded, -⟩ := matched
  intro p member
  by_contra found
  rw [onArray] at run
  cases scan : darrayRemoveWithTest test (s a) with
  | error fault =>
    rw [scan] at run
    cases run
  | ok result =>
    rw [scan] at run
    cases run
    have range : 0 + (s a).count = (l a).length := by rw [(holds a).count, Nat.zero_add]
    have last := darrayTestLoop_reads (holds a) range member (Bool.not_eq_false _ ▸ found) scan
    have below := bounded ⟨(s a).count, (s a).count⟩ (List.mem_map_of_mem last)
    exact absurd below (Nat.lt_irrefl _)

/-- A test that finds nothing leaves the array as it is. -/
theorem darrayRemoveWithTest_matches (holds : HoldAll s l) {a : ι} {test : α → Bool}
    (none : ∀ p ∈ l a, test p = false) :
    Matches (onArray s a (darrayRemoveWithTest test (s a)))
      (Function.update l a ((l a).filter fun p => !test p)) := by
  have range : 0 + (s a).count = (l a).length := by rw [(holds a).count, Nat.zero_add]
  obtain ⟨reads, run, bounded⟩ := darrayTestLoop_none (holds a) none range
  have kept : (l a).filter (fun p => !test p) = l a := by
    rw [List.filter_eq_self]
    intro p member
    rw [none p member]
    rfl
  rw [kept]
  exact onArray_matches holds run bounded (holds a)

/-- A block of size zero. -/
theorem darrayCopy_fails (holds : HoldAll s l) {dst src : ι} (empty : l src = []) :
    darrayCopy false s dst src = .error .realloc := by
  have zero : (s src).count = 0 := by
    rw [(holds src).count, empty]
    rfl
  have failed : darrayRealloc false (s dst) (s src).count = .error .realloc := if_pos ⟨zero, rfl⟩
  rw [darrayCopy, failed]
  rfl

variable [DecidableEq α]

/-- An operation does what is done to the lists exactly where it is spared. -/
theorem DarrayOp.matches_iff (holds : HoldAll s l) (zeroBlock : Bool) {op : DarrayOp ι α}
    (valid : op.Valid l) :
    Matches (op.run zeroBlock s) (op.perform l) ↔ op.Spared zeroBlock s l := by
  cases op with
  | append a p =>
    constructor
    · rintro ⟨s', reads, run, -⟩ full
      by_contra large
      rw [DarrayOp.run, darrayAppend_overflow full large p] at run
      cases run
    · intro counted
      obtain ⟨array, run, one⟩ := darrayAppend_holds (holds a) p counted
      exact onArray_matches holds (congrArg (Except.map (·, [])) run) (List.forall_mem_nil _) one
  | removeLast a =>
    refine iff_of_true ?_ trivial
    obtain ⟨array, run, one⟩ := darrayRemoveLast_holds (holds a) valid
    exact onArray_matches holds (congrArg (Except.map (·, [])) run) (List.forall_mem_nil _) one
  | removeIndex a n =>
    refine iff_of_true ?_ trivial
    obtain ⟨array, reads, run, bounded, one⟩ := darrayRemoveIndex_holds (holds a) valid
    exact onArray_matches holds run bounded one
  | remove a p =>
    refine iff_of_true ?_ trivial
    obtain ⟨array, reads, run, bounded, one⟩ := darrayRemove_holds (holds a) valid
    exact onArray_matches holds run bounded one
  | removeWithTest a test =>
    constructor
    · exact holds.not_found
    · exact darrayRemoveWithTest_matches holds
  | copy dst src =>
    constructor
    · rintro ⟨s', reads, run, -⟩ rfl empty
      rw [DarrayOp.run, darrayCopy_fails holds empty] at run
      cases run
    · exact darrayCopy_matches holds
  | removeAll a =>
    refine iff_of_true ?_ trivial
    refine onArray_matches holds rfl ?_ (darrayRemoveAll_holds (s a))
    intro r member
    cases member

/-- The first operation of a program, and the others. -/
theorem runOps_cons {zeroBlock : Bool} {op : DarrayOp ι α} {s' : ι → Darray α}
    {reads : List SlotRead} (run : op.run zeroBlock s = .ok (s', reads)) (ops : List (DarrayOp ι α)) :
    runOps zeroBlock (op :: ops) s =
      (runOps zeroBlock ops s').map fun r => (r.1, reads ++ r.2) := by
  rw [runOps, run]
  simp only [bind, Except.bind]
  cases runOps zeroBlock ops s' with
  | error fault => rfl
  | ok result => rfl

/-- The arrays follow the lists through every program whose operations are spared. -/
theorem runOps_matches (holds : HoldAll s l) {zeroBlock : Bool} {ops : List (DarrayOp ι α)}
    (valid : ValidOps ops l) (spared : SparedOps zeroBlock ops s l) :
    Matches (runOps zeroBlock ops s) (performOps l ops) := by
  induction ops generalizing s l with
  | nil =>
    exact holds.matches rfl (List.forall_mem_nil _)
  | cons op ops ih =>
    have matched := (op.matches_iff holds zeroBlock valid.1).mpr spared.1
    have ⟨s', reads, run, _⟩ := matched
    obtain ⟨bounded, holds'⟩ := matched.holds run
    obtain ⟨s'', reads', run', bounded', holds''⟩ := ih holds' valid.2 (spared.2 s' reads run)
    refine ⟨s'', reads ++ reads', ?_, ?_, holds''⟩
    · rw [runOps_cons run, run']
      rfl
    · intro r member
      rcases List.mem_append.mp member with first | later
      · exact bounded r first
      · exact bounded' r later

theorem ValidOps.of_prefix {done ops : List (DarrayOp ι α)} (part : done <+: ops)
    (valid : ValidOps ops l) : ValidOps done l := by
  obtain ⟨rest, rfl⟩ := part
  induction done generalizing l with
  | nil => trivial
  | cons op done ih => exact ⟨valid.1, ih valid.2⟩

theorem SparedOps.of_prefix {zeroBlock : Bool} {done ops : List (DarrayOp ι α)} (part : done <+: ops)
    (spared : SparedOps zeroBlock ops s l) : SparedOps zeroBlock done s l := by
  obtain ⟨rest, rfl⟩ := part
  induction done generalizing s l with
  | nil => trivial
  | cons op done ih => exact ⟨spared.1, fun s' reads run => ih (spared.2 s' reads run)⟩

/-- A program whose parts all follow the lists is spared. -/
theorem SparedOps.of_matches (holds : HoldAll s l) {zeroBlock : Bool} {ops : List (DarrayOp ι α)}
    (valid : ValidOps ops l)
    (matched : ∀ done, done <+: ops → Matches (runOps zeroBlock done s) (performOps l done)) :
    SparedOps zeroBlock ops s l := by
  induction ops generalizing s l with
  | nil => trivial
  | cons op ops ih =>
    have first : Matches (op.run zeroBlock s) (op.perform l) := by
      obtain ⟨s', reads, run, bounded, room⟩ := matched [op] ⟨ops, rfl⟩
      cases once : op.run zeroBlock s with
      | error fault =>
        rw [runOps, once] at run
        cases run
      | ok result =>
        rw [runOps_cons once] at run
        cases run
        rw [List.append_nil] at bounded
        exact ⟨_, _, rfl, bounded, room⟩
    refine ⟨(op.matches_iff holds zeroBlock valid.1).mp first, ?_⟩
    intro s' reads run
    refine ih (first.holds run).2 valid.2 ?_
    intro done part
    obtain ⟨s'', reads', run', bounded, room⟩ := matched (op :: done) (List.cons_prefix_cons.mpr ⟨rfl, part⟩)
    rw [runOps_cons run] at run'
    cases rest : runOps zeroBlock done s' with
    | error fault =>
      rw [rest] at run'
      cases run'
    | ok result =>
      rw [rest] at run'
      cases run'
      exact ⟨_, _, rfl, fun r member => bounded r (List.mem_append_right _ member), room⟩

/-- The arrays of a program follow the lists in every state exactly where every operation
is spared. -/
theorem darray_refines_iff (zeroBlock : Bool) {ops : List (DarrayOp ι α)}
    (valid : ValidOps ops fun _ => []) :
    (∀ done, done <+: ops →
      Matches (runOps zeroBlock done fun _ => darrayInit) (performOps (fun _ => []) done)) ↔
      SparedOps zeroBlock ops (fun _ => darrayInit) fun _ => [] := by
  have start : HoldAll (fun _ : ι => (darrayInit : Darray α)) fun _ => [] :=
    fun _ => darrayInit_holds
  constructor
  · exact SparedOps.of_matches start valid
  · intro spared done part
    exact runOps_matches start (valid.of_prefix part) (spared.of_prefix part)

end Runs

/-- Two appended items, one of which is removed, and a copy of the other one. -/
theorem darray_refines_copy :
    let ops : List (DarrayOp Bool ℕ) :=
      [.append true 1, .append true 2, .remove true 1, .copy false true, .removeAll true]
    (∀ done, done <+: ops →
      Matches (runOps false done fun _ => darrayInit) (performOps (fun _ => []) done)) ↔
      SparedOps false ops (fun _ => darrayInit) fun _ => [] := by
  refine darray_refines_iff false ⟨trivial, trivial, ?_, trivial, trivial, trivial⟩
  exact List.mem_cons_self

/-- Of two items that a test finds the second one stays. -/
theorem darrayRemoveWithTest_misses :
    let ops : List (DarrayOp Unit ℕ) :=
      [.append () 2, .append () 4, .removeWithTest () fun p => p % 2 = 0]
    performOps (fun _ => []) ops () = [] ∧
      ¬Matches (runOps true ops fun _ => darrayInit) (performOps (fun _ => []) ops) := by
  intro ops
  refine ⟨by decide, ?_⟩
  rintro ⟨s', reads, run, -, holds⟩
  have left : (runOps true ops fun _ => darrayInit).map (fun r => (r.1 ()).count) = .ok 1 := by
    decide
  have count := (holds ()).2.count
  rw [run] at left
  have one : (s' ()).count = 1 := Except.ok.inj left
  rw [one] at count
  cases count

end Pbc.Misc
